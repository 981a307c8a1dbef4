import Iian.Lib.CountingSort
import Iian.Sampling
import Mathlib.Algebra.Order.Monoid.WithTop
import Mathlib.Data.List.Sort
import Mathlib.Data.Rat.Floor

/- The sampler and the vector helpers it calls, over exact arithmetic: a logit is an element of
an ordered field or `-INFINITY`, and `expf` with its inverse and the random source are given. -/
namespace Iian

/-- A `float` of a logits row; `⊥` is `-INFINITY`. -/
abbrev Score := WithBot ℚ

section Arithmetic

variable (K : Type) [Field K] [LinearOrder K]

/-- `expf` and `logf`: any positive increasing function and its inverse. -/
structure Exponential where
  exp : K → K
  log : K → K
  pos : ∀ x, 0 < exp x
  strictMono : ∀ {x y}, x < y → exp x < exp y
  log_exp : ∀ x, log (exp x) = x

/-- `std::mt19937_64` behind `std::uniform_real_distribution`, scaled to `[0, 1)`. -/
structure RandomSource where
  State : Type
  seed : UInt64 → State
  uniform : State → K × State
  nonneg : ∀ state, 0 ≤ (uniform state).1
  lt_one : ∀ state, (uniform state).1 < 1

end Arithmetic

variable {K : Type} [Field K] [LinearOrder K]

/-- `expf` of a difference of logits; the subtrahend is finite. -/
def Exponential.weight (E : Exponential K) (mx : K) : WithBot K → K
  | ⊥ => 0
  | (x : K) => E.exp (x - mx)

/-- A difference of `float`s; what would be a NaN is `⊥`. -/
def Score.minus : WithBot K → WithBot K → WithBot K
  | (x : K), (y : K) => ((x - y : K) : WithBot K)
  | _, _ => ⊥

namespace Vec

/-- `vec::max_value`. -/
def maxValue (row : List (WithBot K)) : WithBot K :=
  row.foldl (fun mx x => if mx < x then x else mx) ⊥

/-- `vec::argmax`: the first maximum. -/
def argmax (row : List (WithBot K)) : Nat := row.findIdx (fun x => x = maxValue row)

/-- `vec::log_sum_exp`. -/
def logSumExp (E : Exponential K) (row : List (WithBot K)) : WithBot K :=
  match maxValue row with
  | ⊥ => ⊥
  | (mx : K) => ((mx + E.log ((row.map (E.weight mx)).sum) : K) : WithBot K)

/-- One turn of `vec::top_k`: an entry is inserted before the smaller ones at the end. -/
def insertTop (k : Nat) (out : List (Nat × WithBot K)) (index : Nat) (x : WithBot K) :
    List (Nat × WithBot K) :=
  if out.length = k ∧ ¬ (out.getLastD (0, ⊥)).2 < x then out
  else
    let (smaller, front) := out.reverse.span (fun entry => entry.2 < x)
    let out := front.reverse ++ [(index, x)] ++ smaller.reverse
    if out.length > k then out.dropLast else out

/-- `vec::top_k`: the largest entries with their indices, best first. -/
def topK (row : List (WithBot K)) (k : Nat) : List (Nat × WithBot K) :=
  if k = 0 then [] else row.zipIdx.foldl (fun out entry => insertTop k out entry.2 entry.1) []

end Vec

namespace SamplingParams

variable (params : SamplingParams)

/-- `allowed_token_ids`. -/
def keepAllowed (row : List (WithBot K)) : List (WithBot K) :=
  if params.allowedTokenIds.isEmpty then row
  else row.mapIdx (fun index x => if params.allowedTokenIds.contains (index : Token) then x else ⊥)

def addBias (row : List (WithBot K)) : List (WithBot K) :=
  params.logitBias.foldl (fun row entry =>
    row.modify entry.1.toNat (· + ((entry.2 : K) : WithBot K))) row

/-- A bad word forbids its last token behind the others. -/
def maskBadWord (output : List Token) (row : List (WithBot K)) (word : List Token) :
    List (WithBot K) :=
  let front := word.dropLast
  if word.isEmpty ∨ output.length < front.length then row
  else
    let last := word.getLastD 0
    if output.drop (output.length - front.length) = front ∧ inVocab row.length last then
      row.set last.toNat ⊥
    else row

/-- The sampled tokens that count for the penalties. -/
def penaltyWindow (output : List Token) : List Token :=
  if params.repetitionLastN < 0 then output
  else output.drop (output.length - params.repetitionLastN.toNat)

/-- The penalties of one token, with its number of occurrences in the window. -/
def penalize (count : Nat) (x : WithBot K) : WithBot K :=
  let x := if params.repetitionPenalty ≠ 1 then
      (if 0 < x then x.map (· / (params.repetitionPenalty : K))
        else x.map (· * (params.repetitionPenalty : K)))
    else x
  if 0 < count then
    x.map (· - ((params.frequencyPenalty : K) * count + (params.presencePenalty : K)))
  else x

/-- The repetition penalty applies to the prompt as well. -/
def addPenalties (prompt output : List Token) (row : List (WithBot K)) : List (WithBot K) :=
  if params.repetitionPenalty ≠ 1 ∨ params.presencePenalty ≠ 0 ∨ params.frequencyPenalty ≠ 0 then
    let window := params.penaltyWindow output
    row.mapIdx (fun index x =>
      let token : Token := index
      if window.contains token ∨ (params.repetitionPenalty ≠ 1 ∧ prompt.contains token) then
        params.penalize (window.count token) x
      else x)
  else row

/-- The logits processors of `sample`, in their order. -/
def process (prompt output : List Token) (row : List (WithBot K)) : List (WithBot K) :=
  let row := params.addBias (params.keepAllowed row)
  params.addPenalties prompt output (params.badWords.foldl (maskBadWord output) row)

end SamplingParams

namespace Sampler

/-- The order of the candidates: by descending logit, then by id. -/
def descends (row : List (WithBot K)) (a b : Nat) : Bool :=
  row.getD b ⊥ < row.getD a ⊥ || (row.getD a ⊥ == row.getD b ⊥ && a ≤ b)

def sort (row : List (WithBot K)) (ids : List Nat) : List Nat :=
  ids.insertionSort (fun a b => descends row a b)

/-- The bucket of a logit, the highest values in bucket 0. -/
def bucketOf [FloorRing K] (low high : K) : WithBot K → Nat
  | ⊥ => 255
  | (x : K) =>
    let scale := 255 / (high - low)
    255 - min (Int.floor ((x - low) * scale)).toNat 255

/-- `sort_desc`: large sets are sorted bucket by bucket. -/
def sortDesc [FloorRing K] (row : List (WithBot K)) (ids : List Nat) : List Nat :=
  if ids.length < 4096 then sort row ids
  else
    let finite := ids.filterMap (fun id => (row.getD id ⊥ : Option K))
    match finite.min?, finite.max? with
    | some low, some high =>
      if low < high then
        Lib.CountingSort.bucketSort 256 (fun id => bucketOf low high (row.getD id ⊥)) (sort row) ids
      else sort row ids
    | _, _ => sort row ids

/-- The candidates behind `min_p`. -/
def minPIds (E : Exponential K) (params : SamplingParams) (row : List (WithBot K)) : List Nat :=
  if 0 < params.minP then
    let threshold := Vec.maxValue row + (E.log params.minP : K)
    let ids := (List.range row.length).filter (fun id => threshold ≤ row.getD id ⊥)
    if ids.isEmpty then [Vec.argmax row] else ids
  else List.range row.length

/-- The candidates behind `top_k`, sorted when a truncation needs the order. -/
def topKIds [FloorRing K] (params : SamplingParams) (row : List (WithBot K)) (ids : List Nat) :
    List Nat :=
  if 0 < params.topK ∧ params.topK < ids.length then (sort row ids).take params.topK.toNat
  else if params.topP < 1 ∧ 1 < ids.length then sortDesc row ids
  else ids

/-- The loop of `top_p`: the number of leading candidates that reach the mass. -/
def massCount (topP : K) : K → List K → Nat
  | _, [] => 0
  | cum, p :: probs => if topP ≤ cum + p then 1 else massCount topP (cum + p) probs + 1

/-- The loop of the draw. -/
def pick : K → List K → Option Nat
  | _, [] => none
  | r, p :: probs => if r - p ≤ 0 then some 0 else (pick (r - p) probs).map (· + 1)

/-- The candidates of a row with a finite maximum, and their probabilities. -/
def candidates [FloorRing K] (E : Exponential K) (params : SamplingParams)
    (row : List (WithBot K)) (mx : K) : List Nat × List K :=
  let ids := topKIds params row (minPIds E params row)
  let weights := ids.map (fun id => E.weight mx (row.getD id ⊥))
  let probs := weights.map (· / weights.sum)
  let count := if params.topP < 1 ∧ 1 < ids.length then massCount (params.topP : K) 0 probs
    else ids.length
  (ids.take count, probs.take count)

/-- The draw, for a value of the random source in `[0, 1)`. Without a finite logit every
probability is a NaN, no comparison holds, and the last candidate is taken. -/
def draw [FloorRing K] (E : Exponential K) (params : SamplingParams) (row : List (WithBot K))
    (value : K) : Nat :=
  match Vec.maxValue row with
  | ⊥ => (topKIds params row (minPIds E params row)).getLastD 0
  | (mx : K) =>
    let (ids, probs) := candidates E params row mx
    ids.getD ((pick (value * probs.sum) probs).getD (ids.length - 1)) 0

/-- The token and the state of the random source behind it. -/
def choose [FloorRing K] (E : Exponential K) (R : RandomSource K) (params : SamplingParams)
    (rng : R.State) (row : List (WithBot K)) : Nat × R.State :=
  if params.isGreedy then (Vec.argmax row, rng)
  else
    let (value, rng) := R.uniform rng
    (draw E params (row.map (fun x => x.map (· * (1 / (params.temperature : K))))) value, rng)

end Sampler

/-- `SamplerState`. -/
structure SamplerState (R : RandomSource K) where
  params : SamplingParams := {}
  rng : R.State

namespace SamplerState

variable {R : RandomSource K}

def new (R : RandomSource K) (params : SamplingParams) (defaultSeed : UInt64) :
    SamplerState R where
  params := params
  rng := R.seed (params.seed.getD defaultSeed)

/-- `sample`. Log-probabilities are those of the row before any processing. -/
def sample [FloorRing K] (E : Exponential K) (s : SamplerState R) (row : List (WithBot K))
    (prompt output : List Token) : SampledToken (WithBot K) × SamplerState R :=
  let (token, rng) := Sampler.choose E R s.params s.rng (s.params.process prompt output row)
  let lse := Vec.logSumExp E row
  let sampled : SampledToken (WithBot K) :=
    if 0 ≤ s.params.logprobs then
      { token := token
        logprob := some (Score.minus (row.getD token ⊥) lse)
        top := (Vec.topK row (min s.params.logprobs.toNat row.length)).map (fun entry =>
          ((entry.1 : Token), Score.minus entry.2 lse)) }
    else { token := token }
  (sampled, { s with rng := rng })

end SamplerState

end Iian
