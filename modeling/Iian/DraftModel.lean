import Iian.Engine

/- `DraftModel`: proposing tokens with a small model that has a cache of its own.

The requests belong to the engine; a call refers to them by their ids, and vectors that run
parallel to the requests of a call are functions of the id. The attention window of a batch
and the reuse of compute graphs, which do not change what is computed, are left out. -/
namespace Iian

open Lib

/-- What the draft model reads and writes of a `Request`. -/
structure DraftRequest where
  id : Nat
  tokens : List Token
  numComputedTokens : Nat := 0
  numPreemptions : Nat := 0
  isFinished : Bool := false
  isEmbedding : Bool := false
  grammar : Bool := false
  specTokens : List Token := []
  draftKv : KVRequestState := {}
  draftComputed : Nat := 0
  draftEpoch : Nat := 0
deriving DecidableEq, Repr

namespace DraftRequest

def nTokens (r : DraftRequest) : Nat := r.tokens.length

/-- The tokens the draft model is fed: the real ones and its own proposals. -/
def fed (r : DraftRequest) : List Token := r.tokens ++ r.specTokens

/-- `DraftModel::release` -/
def release (pool : BlockPool) (r : DraftRequest) : BlockPool × DraftRequest :=
  let (kv, pool) := pool.freeState r.draftKv
  (pool, { r with draftKv := kv, draftComputed := 0 })

/-- What `draft` does to the state of a request before it asks for cells. -/
def resync (pool : BlockPool) (r : DraftRequest) : BlockPool × DraftRequest :=
  let (pool, r) :=
    if r.draftEpoch ≠ r.numPreemptions then
      let (pool, r) := r.release pool
      (pool, { r with draftEpoch := r.numPreemptions })
    else (pool, r)
  if r.draftComputed > r.nTokens then r.release pool else (pool, r)

end DraftRequest

/-- A batch that was run, with the requests it was made for. -/
structure DraftRun where
  pool : BlockPool
  requests : List DraftRequest
  inBatch : List Nat
  ub : Batch

/-- `argmax`, from entry `t` on; `top` is the entry at `best`. -/
def argmaxFrom {α : Type} [LT α] [DecidableLT α] (best : Nat) (top : α) : Nat → List α → Nat
  | _, [] => best
  | t, x :: row => if top < x then argmaxFrom t x (t + 1) row else argmaxFrom best top (t + 1) row

def argmax {α : Type} [LT α] [DecidableLT α] : List α → Token
  | [] => 0
  | x :: row => (argmaxFrom 0 x 1 row : Nat)

/-- The computation of a batch fails: of the catch-up batch or the decode round with this
number. `count` slots of the batch are undefined then. -/
inductive DraftFault
  | catchUp (batch count : Nat)
  | round (round count : Nat)
deriving DecidableEq, Repr

/-- How the computation of a catch-up batch fails, if it does. -/
def DraftFault.inCatchUp (batch : Nat) : Option DraftFault → Option Nat
  | some (.catchUp number count) => if number = batch then some count else none
  | _ => none

def DraftFault.inRound (round : Nat) : Option DraftFault → Option Nat
  | some (.round number count) => if number = round then some count else none
  | _ => none

/-- A batch returns at least one row. -/
def Batch.withRow (ub : Batch) : Batch :=
  if ub.outIds.isEmpty then { ub with outIds := [0] } else ub

/-- The locals of the loop that assembles a catch-up batch. -/
structure CatchUp where
  ub : Batch := {}
  inBatch : List Nat := []
  lastRow : Nat → Option Nat
  used : Nat := 0

/-- The next `nNew` tokens of a request are put into the batch. -/
def CatchUp.feed (c : CatchUp) (pool : BlockPool) (r : DraftRequest) (nNew : Nat) : CatchUp :=
  let nCtx := r.draftComputed + nNew
  let seq : SeqInfo := {
    cells := (List.range nCtx).map (pool.cellOf r.draftKv)
    fed := r.fed }
  let tokens := c.ub.tokens ++ (List.range' r.draftComputed nNew).map (fun t =>
    { token := r.tokens.getD t 0, pos := t, seqIdx := c.ub.seqs.length,
      slot := pool.cellOf r.draftKv t })
  { ub := { c.ub with
      tokens := tokens
      seqs := c.ub.seqs ++ [seq]
      outIds := if nCtx = r.nTokens then c.ub.outIds ++ [tokens.length - 1] else c.ub.outIds }
    inBatch := c.inBatch ++ [r.id]
    lastRow := if nCtx = r.nTokens then Function.update c.lastRow r.id (some c.ub.outIds.length)
      else c.lastRow
    used := c.used + nNew }

/-- `runs` is ghost data: the batches that were run. -/
structure DraftModel (M : Model) where
  nDraft : Nat
  pool : BlockPool
  cells : Cells M
  requests : List DraftRequest := []
  runs : List DraftRun := []

namespace DraftModel

variable {M : Model} (d : DraftModel M)

def find (d : DraftModel M) (id : Nat) : Option DraftRequest :=
  d.requests.find? (fun r => r.id = id)

def store (r : DraftRequest) : DraftModel M :=
  { d with requests := Keyed.replace DraftRequest.id r d.requests }

/-- A request of a call: the result tells whether it can be drafted for. -/
def admitOne (id : Nat) : DraftModel M × Bool :=
  match d.find id with
  | none => (d, false)
  | some r =>
    if r.isFinished || r.isEmbedding || r.grammar then (d, false)
    else if r.numComputedTokens + 1 ≠ r.nTokens then (d, false)
    else
      let (pool, r) := r.resync d.pool
      match pool.allocateSlots r.draftKv (r.nTokens + d.nDraft) [] with
      | (true, kv, pool) => ({ d with pool := pool }.store { r with draftKv := kv }, true)
      | (false, kv, pool) =>
        ({ d with pool := pool }.store { r with draftKv := kv, specTokens := [] }, false)

/-- The requests of a call that can be drafted for: `reqs`. -/
def admitAll (d : DraftModel M) : List Nat → DraftModel M × List Nat
  | [] => (d, [])
  | id :: ids =>
    let (d, admitted) := d.admitOne id
    let (d, reqs) := d.admitAll ids
    (d, if admitted then id :: reqs else reqs)

/-- The most tokens of a catch-up batch. -/
def budget : Nat := 512

/-- One turn of the loop that assembles a catch-up batch. -/
def enqueue (state : DraftModel M × CatchUp) (id : Nat) : DraftModel M × CatchUp :=
  let (d, c) := state
  match d.find id with
  | none => (d, c)
  | some r =>
    if c.used ≥ budget then (d, c)
    else if r.draftComputed ≥ r.nTokens then (d, c)
    else
      let nNew := min (r.nTokens - r.draftComputed) (budget - c.used)
      (d.store { r with draftComputed := r.draftComputed + nNew }, c.feed d.pool r nNew)

def log (inBatch : List Nat) (ub : Batch) : DraftModel M :=
  { d with runs := d.runs ++
    [{ pool := d.pool, requests := d.requests, inBatch := inBatch, ub := ub }] }

/-- `run`: it fails with `some count`, which counts the slots left undefined. -/
def run (inBatch : List Nat) (ub : Batch) (failure : Option Nat) :
    DraftModel M × Outcome (List (List M.Logit)) :=
  match failure with
  | some count =>
    ({ d.log inBatch ub with cells := Engine.spoil d.cells (ub.tokens.take count) },
      .threw "draft: compute failed")
  | none =>
    let cells := ub.write d.cells
    ({ d.log inBatch ub with cells := cells }, .ok (ub.logits cells))

/-- The rows of the requests whose last token was in the batch are kept. -/
def keepLogits (c : CatchUp) (logits : List (List M.Logit))
    (lastLogits : Nat → Option (List M.Logit)) (id : Nat) : Option (List M.Logit) :=
  match lastLogits id with
  | some row => some row
  | none =>
    if id ∈ c.inBatch then (c.lastRow id).map (fun row => logits.getD row [])
    else none

/-- Phase 1: the requests are fed what the draft model has not seen of them, in batches.
`batch` counts them. -/
def catchUp (fault : Option DraftFault) (reqs : List Nat) :
    Nat → Nat → DraftModel M → (Nat → Option Nat) → (Nat → Option (List M.Logit)) →
    DraftModel M × Outcome (Nat → Option (List M.Logit))
  | 0, _, d, _, lastLogits => (d, .ok lastLogits)
  | fuel + 1, batch, d, lastRow, lastLogits =>
    let (d, c) := reqs.foldl enqueue (d, { lastRow := lastRow })
    if c.inBatch.isEmpty then (d, .ok lastLogits)
    else
      match d.run c.inBatch c.ub.withRow (DraftFault.inCatchUp batch fault) with
      | (d, .ok logits) =>
        d.catchUp fault reqs fuel (batch + 1) c.lastRow (keepLogits c logits lastLogits)
      | (d, .threw message) => (d, .threw message)
      | (d, .aborted) => (d, .aborted)

/-- What the draft model has not seen of its requests, in tokens. -/
def behind : Nat :=
  (d.requests.map (fun r => r.nTokens - r.draftComputed)).sum

def clearSpec (ids : List Nat) : DraftModel M :=
  { d with requests := d.requests.map (fun r =>
    if r.id ∈ ids then { r with specTokens := [] } else r) }

/-- Every request with a row gets the best token of it. The requests that go on are
returned. -/
def pushDrafts [LT M.Logit] [DecidableLT M.Logit] (d : DraftModel M)
    (rows : List (Nat × List M.Logit)) : DraftModel M × List Nat :=
  ({ d with requests := d.requests.map (fun r =>
      match rows.lookup r.id with
      | some row => { r with specTokens := r.specTokens ++ [argmax row] }
      | none => r) },
    (rows.filter (fun entry => M.isEog (argmax entry.2) = false)).map Prod.fst)

/-- One turn of the loop that assembles the batch of a decode round. -/
def enqueueDraft (round : Nat) (ub : Batch) (id : Nat) : Batch :=
  match d.find id with
  | none => ub
  | some r =>
    let pos := r.nTokens + round - 1
    let seq : SeqInfo := {
      cells := (List.range (pos + 1)).map (d.pool.cellOf r.draftKv)
      fed := r.fed }
    let tokens := ub.tokens ++ [{
      token := r.specTokens.getLastD 0, pos := pos, seqIdx := ub.seqs.length,
      slot := d.pool.cellOf r.draftKv pos }]
    { ub with tokens := tokens, seqs := ub.seqs ++ [seq],
              outIds := ub.outIds ++ [tokens.length - 1] }

/-- Phase 2: the decode rounds from number `round` on. -/
def rounds [LT M.Logit] [DecidableLT M.Logit] (fault : Option DraftFault) :
    Nat → Nat → DraftModel M → List Nat → DraftModel M × Outcome Unit
  | 0, _, d, _ => (d, .ok ())
  | left + 1, round, d, active =>
    if active.isEmpty then (d, .ok ())
    else
      match d.run active (active.foldl (d.enqueueDraft round) {})
          (DraftFault.inRound round fault) with
      | (d, .ok logits) =>
        let (d, active) := d.pushDrafts (active.zip logits)
        d.rounds fault left (round + 1) active
      | (d, .threw message) => (d, .threw message)
      | (d, .aborted) => (d, .aborted)

/-- `DraftModel::draft` -/
def draft [LT M.Logit] [DecidableLT M.Logit] (d : DraftModel M) (reqsIn : List Nat)
    (fault : Option DraftFault) : DraftModel M × Outcome Unit :=
  if d.nDraft = 0 ∨ reqsIn = [] then (d, .ok ())
  else
    let (d, reqs) := d.admitAll reqsIn
    if reqs.isEmpty then (d, .ok ())
    else
      match d.catchUp fault reqs (d.behind + 1) 0 (fun _ => none) (fun _ => none) with
      | (d, .ok lastLogits) =>
        let (d, active) := (d.clearSpec reqs).pushDrafts
          (reqs.filterMap (fun id => (lastLogits id).map (fun row => (id, row))))
        d.rounds fault (d.nDraft - 1) 1 active
      | (d, .threw message) => (d, .threw message)
      | (d, .aborted) => (d, .aborted)

/-- The call of `process_outputs`: the engine goes on without drafts when it throws. -/
def draftCaught [LT M.Logit] [DecidableLT M.Logit] (d : DraftModel M) (cands : List Nat)
    (fault : Option DraftFault) : DraftModel M :=
  match d.draft cands fault with
  | (d, .ok ()) => d
  | (d, _) => d.clearSpec cands

end DraftModel

/-- What happens to the requests: the engine takes a request in, the target model computes
some of its tokens, some drafts are accepted with a token recovered behind them, the
scheduler preempts, a request ends, and the engine asks for drafts. -/
inductive DraftAction
  | submit (tokens : List Token) (isEmbedding grammar : Bool)
  | compute (id numComputedTokens : Nat)
  | grow (id accepted : Nat) (recovered : Token)
  | preempt (id : Nat)
  | finish (id : Nat)
  | draft (cands : List Nat) (once : cands.Nodup) (fault : Option DraftFault)

namespace DraftModel

variable {M : Model}

/-- `DraftModel` as the engine constructs it. -/
def new (M : Model) (specDraftN numBlocks : Nat) : DraftModel M where
  nDraft := max 1 specDraftN
  pool := BlockPool.new numBlocks 16 false
  cells := List.replicate (numBlocks * 16) none

/-- Changes one request. -/
def modify (d : DraftModel M) (id : Nat) (f : DraftRequest → DraftRequest) : DraftModel M :=
  { d with requests := d.requests.map (fun r => if r.id = id then f r else r) }

def apply [LT M.Logit] [DecidableLT M.Logit] (d : DraftModel M) : DraftAction → DraftModel M
  | .submit tokens isEmbedding grammar =>
    { d with requests := d.requests ++ [{
      id := d.requests.length, tokens := tokens, isEmbedding := isEmbedding
      grammar := grammar }] }
  | .compute id count => d.modify id (fun r => { r with numComputedTokens := count })
  | .grow id accepted recovered => d.modify id (fun r =>
    let tokens := r.tokens ++ r.specTokens.take accepted ++ [recovered]
    { r with tokens := tokens, numComputedTokens := tokens.length - 1, specTokens := [] })
  | .preempt id => d.modify id (fun r =>
    { r with numComputedTokens := 0, numPreemptions := r.numPreemptions + 1 })
  | .finish id =>
    match d.find id with
    | none => d
    | some r =>
      let (pool, r) := r.release d.pool
      { d with pool := pool }.store { r with isFinished := true }
  | .draft cands _ fault => d.draftCaught cands fault

/-- The state after the given actions. -/
def after (M : Model) [LT M.Logit] [DecidableLT M.Logit] (specDraftN numBlocks : Nat)
    (actions : List DraftAction) : DraftModel M :=
  actions.foldl apply (new M specDraftN numBlocks)

end DraftModel

end Iian
