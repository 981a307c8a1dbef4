import Iian.Detokenizer

/- Sampling one output row and the stop checks after it, as in the row loop of
`Engine::process_outputs`. -/
namespace Iian

inductive FinishReason
  | none
  | stop
  | length
  | abort
  | error
  | toolCalls
deriving DecidableEq, Repr

/-- How a loop over output rows ended. -/
inductive RowsEnd
  | next
  | stop (why : FinishReason)
  | threw (message : String)
  | aborted
deriving DecidableEq, Repr

def RowsEnd.ofStop : Option FinishReason → RowsEnd
  | some why => .stop why
  | none => .next

/-- The part of a request that the row loop reads and writes. `pending` is the state of its
detokenizer. -/
structure Gen (M : Model) where
  params : SamplingParams
  tokens : List Token
  nPrompt : Nat
  sampler : M.Sampler
  grammar : Option M.Grammar := none
  pending : Bytes := []
  text : Bytes := []
  stopCheckOffset : Nat := 0
  stopReason : Bytes := []

namespace Gen

variable {M : Model} (gen : Gen M)

def nTokens : Nat := gen.tokens.length

def nOutput : Nat := gen.tokens.length - gen.nPrompt

/-- `min_tokens` forbids end-of-generation and stop tokens. -/
def maskMinTokens (row : List M.Logit) : List M.Logit :=
  if (gen.nOutput : Int) < gen.params.minTokens then
    let row := row.mapIdx (fun token logit => if M.isEog token then M.negInf else logit)
    gen.params.stopTokenIds.foldl (fun row token => row.set token.toNat M.negInf) row
  else row

/-- Sample, with the grammar applied to a copy of the row only when it rejects the first
sample. -/
def sampleAllowed (grammar : M.Grammar) (row : List M.Logit) :
    Outcome (SampledToken M.Logit × M.Sampler) :=
  let prompt := gen.tokens.take gen.nPrompt
  let output := gen.tokens.drop gen.nPrompt
  let first := M.sample gen.sampler row prompt output
  do
    if ← M.wouldAccept grammar first.1.token then .ok first
    else do
      let masked ← M.applyGrammar grammar row
      .ok (M.sample first.2 masked prompt output)

def sampleToken (row : List M.Logit) : Outcome (SampledToken M.Logit × Gen M) :=
  match gen.grammar with
  | none =>
    let (sampled, sampler) := M.sample gen.sampler row (gen.tokens.take gen.nPrompt)
      (gen.tokens.drop gen.nPrompt)
    .ok (sampled, { gen with sampler := sampler })
  | some grammar => do
    let (sampled, sampler) ← gen.sampleAllowed grammar row
    let grammar ← M.acceptToken grammar sampled.token
    .ok (sampled, { gen with sampler := sampler, grammar := some grammar })

/-- `std::to_string` of a token id. -/
def tokenText (token : Token) : Bytes :=
  (toString token).toList.map (fun digit => UInt8.ofNat digit.toNat)

/-- `std::string::find`: the first occurrence at or after `start`. -/
def findFrom (text pattern : Bytes) (start : Nat) : Option Nat :=
  (List.range (text.length + 1)).find? (fun pos => start ≤ pos ∧ pattern.isPrefixOf (text.drop pos))

/-- The search over the stop strings: the occurrence that ends first, as its end, its start
and the string. -/
def bestStop (text : Bytes) (offset : Nat) (stops : List Bytes) : Option (Nat × Nat × Bytes) :=
  stops.foldl (fun best stop =>
    if stop.isEmpty then best
    else
      let start := if offset > stop.length then offset - stop.length else 0
      match findFrom text stop start with
      | none => best
      | some pos =>
        match best with
        | none => some (pos + stop.length, pos, stop)
        | some (bestEnd, _, _) =>
          if pos + stop.length < bestEnd then some (pos + stop.length, pos, stop) else best)
    none

/-- The token-level stop checks. -/
def checkToken (token : Token) : Gen M × Option FinishReason :=
  if M.isEog token && !gen.params.ignoreEos then (gen, some .stop)
  else if gen.params.stopTokenIds.contains token then
    ({ gen with stopReason := tokenText token }, some .stop)
  else (gen, none)

def detokenize (token : Token) : Gen M :=
  let (text, pending) := Detokenizer.push M gen.params.skipSpecialTokens gen.pending token
  { gen with text := gen.text ++ text, pending := pending }

/-- Both branches that detokenize do the same; only a hidden end-of-generation token is
skipped. -/
def detokenizeStep (token : Token) (stopped : Bool) : Gen M :=
  if !(stopped && !gen.params.includeStopStrInOutput && !M.isEog token) &&
      !(M.isEog token && gen.params.skipSpecialTokens) then gen.detokenize token
  else if !M.isEog token then gen.detokenize token
  else gen

/-- The stop strings are searched only while nothing else has stopped the request. -/
def checkStrings : Gen M × Option FinishReason :=
  if !gen.params.stop.isEmpty && decide (gen.params.minTokens ≤ (gen.nOutput : Int)) then
    match bestStop gen.text gen.stopCheckOffset gen.params.stop with
    | some (bestEnd, bestStart, best) =>
      let text := gen.text.take (if gen.params.includeStopStrInOutput then bestEnd else bestStart)
      ({ gen with stopReason := best, text := text, pending := [],
                  stopCheckOffset := text.length }, some .stop)
    | none => ({ gen with stopCheckOffset := gen.text.length }, none)
  else (gen, none)

def checkLength (maxModelLen : Nat) (gen : Gen M) : Option FinishReason :=
  if 0 < gen.params.maxTokens ∧ gen.params.maxTokens ≤ (gen.nOutput : Int) then some .length
  else if maxModelLen ≤ gen.nTokens then some .length
  else none

/-- Everything between sampling a token and the end of its turn of the row loop. -/
def pushToken (maxModelLen : Nat) (gen : Gen M) (token : Token) : Gen M × Option FinishReason :=
  let gen := { gen with tokens := gen.tokens ++ [token] }
  let (gen, stop) := gen.checkToken token
  let gen := gen.detokenizeStep token stop.isSome
  match stop with
  | some why => (gen, some why)
  | none =>
    match gen.checkStrings with
    | (gen, some why) => (gen, some why)
    | (gen, none) => (gen, checkLength maxModelLen gen)

/-- One turn of the row loop. -/
def step (maxModelLen : Nat) (gen : Gen M) (row : List M.Logit) :
    Outcome (SampledToken M.Logit × Gen M × Option FinishReason) :=
  match gen.sampleToken (gen.maskMinTokens row) with
  | .ok (sampled, gen) => .ok (sampled, gen.pushToken maxModelLen sampled.token)
  | .threw message => .threw message
  | .aborted => .aborted

/-- `finish` flushes the bytes the detokenizer holds back. -/
def flush : Gen M := { gen with text := gen.text ++ gen.pending, pending := [] }

/-- The fields that the stop checks leave alone. -/
def core : SamplingParams × List Token × Nat × M.Sampler × Option M.Grammar :=
  (gen.params, gen.tokens, gen.nPrompt, gen.sampler, gen.grammar)

theorem checkToken_core (gen : Gen M) (token : Token) :
    (gen.checkToken token).1.core = gen.core := by
  unfold checkToken
  split
  · rfl
  · split <;> rfl

theorem detokenizeStep_core (gen : Gen M) (token : Token) (stopped : Bool) :
    (gen.detokenizeStep token stopped).core = gen.core := by
  unfold detokenizeStep
  split
  · rfl
  · split <;> rfl

theorem checkStrings_core (gen : Gen M) : gen.checkStrings.1.core = gen.core := by
  unfold checkStrings
  split
  · split <;> rfl
  · rfl

theorem pushToken_core (maxModelLen : Nat) (gen : Gen M) (token : Token) :
    (gen.pushToken maxModelLen token).1.core =
      (gen.params, gen.tokens ++ [token], gen.nPrompt, gen.sampler, gen.grammar) := by
  unfold pushToken
  dsimp only
  generalize pushed : ({ gen with tokens := gen.tokens ++ [token] } : Gen M) = next
  have start : next.core =
      (gen.params, gen.tokens ++ [token], gen.nPrompt, gen.sampler, gen.grammar) := by
    rw [← pushed]
    rfl
  have checked := next.checkToken_core token
  have text := (next.checkToken token).1.detokenizeStep_core token (next.checkToken token).2.isSome
  split
  · exact text.trans (checked.trans start)
  have strings := ((next.checkToken token).1.detokenizeStep token
    (next.checkToken token).2.isSome).checkStrings_core
  split
  · rename_i shape
    rw [shape] at strings
    exact strings.trans (text.trans (checked.trans start))
  · rename_i shape
    rw [shape] at strings
    exact strings.trans (text.trans (checked.trans start))

/-- A request that may go on is shorter than the context. -/
theorem pushToken_continues {maxModelLen : Nat} {gen : Gen M} {token : Token}
    (continues : (gen.pushToken maxModelLen token).2 = none) :
    (gen.pushToken maxModelLen token).1.nTokens < maxModelLen := by
  unfold pushToken at continues ⊢
  dsimp only at continues ⊢
  split at continues
  · cases continues
  split at continues
  · cases continues
  unfold checkLength at continues
  split at continues
  · cases continues
  split at continues
  · cases continues
  · rename_i short
    exact Nat.lt_of_not_le short

theorem maskMinTokens_length (gen : Gen M) (row : List M.Logit) :
    (gen.maskMinTokens row).length = row.length := by
  unfold maskMinTokens
  split
  · exact List.foldlRecOn (motive := fun masked => List.length masked = row.length) _ _
      List.length_mapIdx fun _ same _ _ => List.length_set.trans same
  · rfl

variable {gen : Gen M} {sampled : SampledToken M.Logit}

/-- Sampling changes only the sampler and the grammar. -/
theorem sampleToken_fields {next : Gen M} {row : List M.Logit}
    (sampling : gen.sampleToken row = .ok (sampled, next)) :
    next = { gen with sampler := next.sampler, grammar := next.grammar } ∧
      (gen.grammar = none → next.grammar = none) := by
  unfold sampleToken at sampling
  dsimp only at sampling
  split at sampling
  · rename_i absent
    cases sampling
    exact ⟨rfl, fun _ => absent⟩
  · rename_i present
    obtain ⟨_, _, accepting⟩ := Outcome.bind_eq_ok sampling
    obtain ⟨_, _, done⟩ := Outcome.bind_eq_ok accepting
    cases done
    refine ⟨rfl, ?_⟩
    intro absent
    rw [present] at absent
    cases absent

theorem sampleToken_free (free : gen.grammar = none) (row : List M.Logit) :
    ∃ sampled next, gen.sampleToken row = .ok (sampled, next) := by
  unfold sampleToken
  rw [free]
  exact ⟨_, _, rfl⟩

/-- What a successful turn of the row loop does, apart from the text. -/
structure Stepped (maxModelLen : Nat) (gen next : Gen M) (token : Token)
    (stop : Option FinishReason) : Prop where
  tokens : next.tokens = gen.tokens ++ [token]
  nPrompt : next.nPrompt = gen.nPrompt
  params : next.params = gen.params
  free : gen.grammar = none → next.grammar = none
  short : stop = none → next.nTokens < maxModelLen

section

variable {maxModelLen : Nat} {next : Gen M} {row : List M.Logit} {stop : Option FinishReason}
    (stepped : gen.step maxModelLen row = .ok (sampled, next, stop))
include stepped

/-- A successful turn samples a token and pushes it. -/
theorem step_pushes : ∃ middle : Gen M,
    gen.sampleToken (gen.maskMinTokens row) = .ok (sampled, middle) ∧
      middle.pushToken maxModelLen sampled.token = (next, stop) := by
  unfold step at stepped
  split at stepped
  · rename_i drawn middle sampling
    simp only [Outcome.ok.injEq, Prod.mk.injEq] at stepped
    obtain ⟨rfl, pushed⟩ := stepped
    exact ⟨middle, sampling, pushed⟩
  · cases stepped
  · cases stepped

theorem step_ok : Stepped maxModelLen gen next sampled.token stop := by
  obtain ⟨middle, sampling, pushed⟩ := step_pushes stepped
  obtain ⟨fields, free⟩ := sampleToken_fields sampling
  have params : middle.params = gen.params := by rw [fields]
  have tokens : middle.tokens = gen.tokens := by rw [fields]
  have nPrompt : middle.nPrompt = gen.nPrompt := by rw [fields]
  have core := pushToken_core maxModelLen middle sampled.token
  have continues := @pushToken_continues M maxModelLen middle sampled.token
  rw [pushed] at core continues
  simp only [Gen.core, Prod.mk.injEq] at core
  obtain ⟨sameParams, sameTokens, samePrompt, _, sameGrammar⟩ := core
  refine ⟨?_, samePrompt.trans nPrompt, sameParams.trans params, ?_, continues⟩
  · rw [sameTokens, tokens]
  · intro absent
    rw [sameGrammar]
    exact free absent

end

theorem step_free (free : gen.grammar = none) (maxModelLen : Nat) (row : List M.Logit) :
    ∃ sampled next stop, gen.step maxModelLen row = .ok (sampled, next, stop) := by
  unfold step
  obtain ⟨sampled, next, sampling⟩ := sampleToken_free free (gen.maskMinTokens row)
  rw [sampling]
  exact ⟨_, _, _, rfl⟩

end Gen

end Iian
