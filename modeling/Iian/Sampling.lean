import Iian.BlockHash
import Mathlib.Algebra.GroupWithZero.Nat
import Mathlib.Algebra.Order.Ring.Rat

/- Sampling parameters. Floating-point fields are rationals; `prompt_logprobs` and `echo`,
which the engine never reads, are left out. -/
namespace Iian

/-- A `std::string`; texts are not assumed to be valid UTF-8. -/
abbrev Bytes := List UInt8

/-- A string literal of the source. -/
def ascii (text : String) : Bytes := text.toList.map (fun char => UInt8.ofNat char.toNat)

structure SamplingParams where
  n : Int := 1
  temperature : ℚ := 1
  topP : ℚ := 1
  topK : Int := 0
  minP : ℚ := 0
  presencePenalty : ℚ := 0
  frequencyPenalty : ℚ := 0
  repetitionPenalty : ℚ := 1
  repetitionLastN : Int := -1
  seed : Option UInt64 := none
  maxTokens : Int := -1
  minTokens : Int := 0
  ignoreEos : Bool := false
  stop : List Bytes := []
  stopTokenIds : List Token := []
  includeStopStrInOutput : Bool := false
  skipSpecialTokens : Bool := true
  logprobs : Int := -1
  logitBias : List (Token × ℚ) := []
  allowedTokenIds : List Token := []
  badWords : List (List Token) := []
  grammar : Bytes := []
  grammarRoot : String := "root"
  jsonSchema : Bytes := []

namespace SamplingParams

def isGreedy (params : SamplingParams) : Bool := params.temperature < 1 / 100000

def inVocab (nVocab : Nat) (token : Token) : Bool := 0 ≤ token ∧ token < nVocab

/-- `validate`; the message is the one of the `std::invalid_argument`. -/
def validate (params : SamplingParams) (nVocab : Nat) : Except String Unit := do
  if params.n < 1 ∨ params.n > 128 then throw "n must be in [1, 128]"
  if params.temperature < 0 then throw "temperature must be >= 0"
  if params.topP ≤ 0 ∨ params.topP > 1 then throw "top_p must be in (0, 1]"
  if params.topK < -1 then throw "top_k must be -1, 0 or positive"
  if params.minP < 0 ∨ params.minP > 1 then throw "min_p must be in [0, 1]"
  if params.presencePenalty < -2 ∨ params.presencePenalty > 2 then
    throw "presence_penalty must be in [-2, 2]"
  if params.frequencyPenalty < -2 ∨ params.frequencyPenalty > 2 then
    throw "frequency_penalty must be in [-2, 2]"
  if params.repetitionPenalty ≤ 0 then throw "repetition_penalty must be > 0"
  if params.maxTokens < -1 ∨ params.maxTokens = 0 then throw "max_tokens must be >= 1"
  if params.minTokens < 0 then throw "min_tokens must be >= 0"
  if params.maxTokens > 0 ∧ params.minTokens > params.maxTokens then
    throw "min_tokens must be <= max_tokens"
  if params.logprobs > 20 then throw "logprobs must be <= 20"
  match params.logitBias.find? (fun entry => !inVocab nVocab entry.1) with
  | some entry => throw s!"logit_bias token id out of range: {entry.1}"
  | none => pure ()
  match params.stopTokenIds.find? (fun token => !inVocab nVocab token) with
  | some token => throw s!"stop_token_ids out of range: {token}"
  | none => pure ()

end SamplingParams

/-- A sampled token with the log-probabilities that were asked for. -/
structure SampledToken (Logit : Type) where
  token : Token
  logprob : Option Logit := none
  top : List (Token × Logit) := []

/-- How a call ends that may throw or abort the process. -/
inductive Outcome (α : Type)
  | ok (value : α)
  | threw (message : String)
  | aborted
deriving DecidableEq

namespace Outcome

instance : Monad Outcome where
  pure := .ok
  bind
    | .ok value, rest => rest value
    | .threw message, _ => .threw message
    | .aborted, _ => .aborted

variable {α β : Type} {turn : β → α → Outcome β}

@[simp] theorem pure_eq (value : α) : (pure value : Outcome α) = .ok value := rfl

@[simp] theorem ok_bind (value : α) (rest : α → Outcome β) : (Outcome.ok value >>= rest) = rest value :=
  rfl

theorem bind_eq_ok {first : Outcome α} {rest : α → Outcome β} {result : β}
    (ended : first >>= rest = .ok result) : ∃ value, first = .ok value ∧ rest value = .ok result := by
  cases first with
  | ok value => exact ⟨value, rfl, ended⟩
  | threw message => cases ended
  | aborted => cases ended

/-- A loop that goes on keeps what every turn keeps. -/
theorem foldlM_ok (keeps : List α → β → Prop) (items : List α) {acc : β} (start : keeps [] acc)
    (one : ∀ front item back acc, items = front ++ item :: back → keeps front acc →
      ∃ next, turn acc item = .ok next ∧ keeps (front ++ [item]) next) :
    ∃ result, items.foldlM turn acc = .ok result ∧ keeps items result := by
  induction items generalizing keeps acc with
  | nil => exact ⟨acc, rfl, start⟩
  | cons item items ih =>
    obtain ⟨next, turned, kept⟩ := one [] item items acc rfl start
    obtain ⟨result, ended, last⟩ := ih (fun front => keeps (item :: front)) kept
      (fun front other back acc shape kept =>
        one (item :: front) other back acc (by rw [shape]; rfl) kept)
    exact ⟨result, by rw [List.foldlM_cons, turned]; exact ended, last⟩

/-- A loop that has ended keeps what every turn keeps that goes on. -/
theorem foldlM_keeps {keeps : β → Prop} {items : List α}
    (one : ∀ item ∈ items, ∀ acc next, keeps acc → turn acc item = .ok next → keeps next)
    {acc result : β} (start : keeps acc) (ended : items.foldlM turn acc = .ok result) :
    keeps result := by
  induction items generalizing acc with
  | nil =>
    cases ended
    exact start
  | cons item items ih =>
    rw [List.foldlM_cons] at ended
    obtain ⟨next, turned, rest⟩ := bind_eq_ok ended
    exact ih (fun other member => one other (List.mem_cons_of_mem _ member))
      (one item List.mem_cons_self acc next start turned) rest

end Outcome

end Iian
