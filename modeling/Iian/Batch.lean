import Iian.Scheduler

/- The micro-batch a step builds and what the network computes from it.

The four parallel vectors of `UBatch` are one list of batch tokens. The attention window
and the choice of the attention kernel, which do not change what is computed, are left
out. -/
namespace Iian

variable {M : Model}

/-- The contents of a KV cell. `fed` is ghost data: the tokens the sequence had been fed,
up to and including the one the cell was last written for. -/
structure Cell (M : Model) where
  kv : M.KV
  fed : List Token

abbrev Cells (M : Model) := List (Option (Cell M))

/-- `UBatch::SeqInfo`: the cells of the positions of a sequence, with the tokens fed. -/
structure SeqInfo where
  cells : List (Option Nat) := []
  fed : List Token := []
deriving DecidableEq, Repr

structure BatchToken where
  token : Token
  pos : Nat
  seqIdx : Nat
  slot : Option Nat
deriving DecidableEq, Repr

/-- The batch with the rows of every scheduled request: the first row of its logits, and
the first row and the number of rows of an embedding request. -/
structure Batch where
  tokens : List BatchToken := []
  seqs : List SeqInfo := []
  outIds : List Nat := []
  logitRows : List (Option Nat) := []
  embdRows : List (Option (Nat × Nat)) := []
deriving DecidableEq, Repr

namespace Batch

/-- One turn of the loop that builds the batch. -/
def push (pool : BlockPool) (batch : Batch) (r : Request M) (entry : ScheduledRequest) : Batch :=
  let nCtxTokens := r.numComputedTokens + entry.nNewTokens
  let seq : SeqInfo := {
    cells := (List.range nCtxTokens).map (pool.cellOf r.kv)
    fed := r.fed }
  let fresh := (List.range' r.numComputedTokens entry.nNewTokens).map (fun pos =>
    { token := r.fed.getD pos 0, pos := pos, seqIdx := batch.seqs.length,
      slot := pool.cellOf r.kv pos : BatchToken })
  let tokens := batch.tokens ++ fresh
  let batch := { batch with tokens := tokens, seqs := batch.seqs ++ [seq] }
  if r.isEmbedding then
    { batch with
      embdRows := batch.embdRows ++ [some (batch.outIds.length, entry.nNewTokens)]
      outIds := batch.outIds ++
        (List.range entry.nNewTokens).map (fun k => tokens.length - entry.nNewTokens + k)
      logitRows := batch.logitRows ++ [none] }
  else if nCtxTokens ≥ r.nTokens then
    let first := tokens.length - 1 - entry.nSpec
    { batch with
      embdRows := batch.embdRows ++ [none]
      logitRows := batch.logitRows ++ [some batch.outIds.length]
      outIds := batch.outIds ++ (List.range (entry.nSpec + 1)).map (fun k => first + k) }
  else
    { batch with
      embdRows := batch.embdRows ++ [none]
      logitRows := batch.logitRows ++ [none] }

def pushEntry (s : Scheduler M) (batch : Batch) (entry : ScheduledRequest) : Batch :=
  match s.find entry.req with
  | none => batch
  | some r => batch.push s.pool r entry

/-- The batch of the scheduled requests, in order. -/
def build (s : Scheduler M) (scheduled : List ScheduledRequest) : Batch :=
  let batch : Batch := scheduled.foldl (pushEntry s) {}
  if batch.outIds.isEmpty then { batch with outIds := [0] } else batch

/-- The K/V contents of the first `count` cells of a sequence. -/
def context (cells : Cells M) (seq : SeqInfo) (count : Nat) : List (Option M.KV) :=
  (seq.cells.take count).map (fun slot =>
    (slot.bind (fun cell => cells.getD cell none)).map Cell.kv)

def seqOf (batch : Batch) (token : BatchToken) : SeqInfo := batch.seqs.getD token.seqIdx {}

/-- The K/V of one batch token is stored in its slot. -/
def writeToken (batch : Batch) (cells : Cells M) (token : BatchToken) : Cells M :=
  let seq := batch.seqOf token
  match token.slot with
  | none => cells
  | some slot => cells.set slot (some {
      kv := M.keyValue (context cells seq token.pos) token.token
      fed := seq.fed.take (token.pos + 1) })

def write (batch : Batch) (cells : Cells M) : Cells M :=
  batch.tokens.foldl batch.writeToken cells

/-- The batch tokens whose rows are fetched, with the contents of their cells. -/
def outputs (batch : Batch) (cells : Cells M) : List (List (Option M.KV) × Token) :=
  batch.outIds.map (fun index =>
    let token := batch.tokens.getD index { token := 0, pos := 0, seqIdx := 0, slot := none }
    (context cells (batch.seqOf token) (token.pos + 1), token.token))

def logits (batch : Batch) (cells : Cells M) : List (List M.Logit) :=
  (batch.outputs cells).map (fun output => M.logits output.1 output.2)

def hidden (batch : Batch) (cells : Cells M) : List M.Embedding :=
  (batch.outputs cells).map (fun output => M.hidden output.1 output.2)

end Batch

end Iian
