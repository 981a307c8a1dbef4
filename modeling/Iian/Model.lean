import Iian.Sampling
import Mathlib.Data.List.Induction

/- What the engine is given: the network, the tokenizer, the sampler and the grammar engine.

The network is any function of the K/V contents of the cells listed for the positions of a
sequence. The K/V of a token depends on the cells before it, its logits and its hidden
state on those up to and including its own. -/
namespace Iian

open List

structure Model where
  Logit : Type
  KV : Type
  Sampler : Type
  Grammar : Type
  nVocab : Nat
  nEmbd : Nat
  negInf : Logit
  keyValue : List (Option KV) → Token → KV
  logits : List (Option KV) → Token → List Logit
  hidden : List (Option KV) → Token → Fin nEmbd → ℚ
  normalize : (Fin nEmbd → ℚ) → Fin nEmbd → ℚ
  isEog : Token → Bool
  tokenToPiece : Token → Bool → Bytes
  defaultSampler : Sampler
  newSampler : SamplingParams → UInt64 → Sampler
  sample : Sampler → List Logit → List Token → List Token → SampledToken Logit × Sampler
  grammarInit : SamplingParams → Except String Grammar
  wouldAccept : Grammar → Token → Outcome Bool
  applyGrammar : Grammar → List Logit → Outcome (List Logit)
  acceptToken : Grammar → Token → Outcome Grammar

namespace Model

variable (M : Model)

abbrev Embedding := Fin M.nEmbd → ℚ

/-- The cache contents after a sequence has been fed token by token. -/
def cacheOf (tokens : List Token) : List (Option M.KV) :=
  tokens.foldl (fun context token => context ++ [some (M.keyValue context token)]) []

/-- The logits row of the last position of a token prefix: the function `F`. -/
def prefixLogits (tokens : List Token) : List M.Logit :=
  M.logits (M.cacheOf tokens) (tokens.getLastD 0)

/-- The hidden state of the last position of a token prefix. -/
def prefixHidden (tokens : List Token) : M.Embedding :=
  M.hidden (M.cacheOf tokens) (tokens.getLastD 0)

theorem cacheOf_concat (tokens : List Token) (token : Token) :
    M.cacheOf (tokens ++ [token]) =
      M.cacheOf tokens ++ [some (M.keyValue (M.cacheOf tokens) token)] := by
  simp only [cacheOf, foldl_append, foldl_cons, foldl_nil]

@[simp] theorem cacheOf_length (tokens : List Token) :
    (M.cacheOf tokens).length = tokens.length := by
  induction tokens using List.reverseRecOn with
  | nil => rfl
  | append_singleton front token ih => simp [cacheOf_concat, ih]

theorem cacheOf_append (tokens more : List Token) :
    M.cacheOf tokens <+: M.cacheOf (tokens ++ more) := by
  induction more using List.reverseRecOn with
  | nil => simp
  | append_singleton front token ih =>
    rw [← append_assoc, cacheOf_concat]
    exact ih.trans (prefix_append _ _)

theorem cacheOf_take (tokens : List Token) (count : Nat) :
    M.cacheOf (tokens.take count) = (M.cacheOf tokens).take count := by
  have leading := M.cacheOf_append (tokens.take count) (tokens.drop count)
  rw [take_append_drop] at leading
  rw [prefix_iff_eq_take.mp leading, cacheOf_length, length_take]
  rcases Nat.le_total count tokens.length with inside | outside
  · rw [Nat.min_eq_left inside]
  · rw [Nat.min_eq_right outside, take_of_length_le (by simp), take_of_length_le]
    simpa using outside

/-- A network whose cells hold the tokens themselves, so that its logits can be any function
of the prefix. -/
def ofPrefix (D : List Token → List M.Logit) : Model :=
  { M with
    KV := Token
    keyValue := fun _ token => token
    logits := fun context _ => D (context.filterMap id)
    hidden := fun _ _ _ => 0 }

/-- A network for concrete runs: logits, samples and hidden states are the number of tokens
seen so far. It has no grammars and one end-of-generation token. -/
def counting : Model where
  Logit := Int
  KV := Unit
  Sampler := Unit
  Grammar := Empty
  nVocab := 100
  nEmbd := 1
  negInf := 0
  keyValue := fun _ _ => ()
  logits := fun context _ => [context.length]
  hidden := fun context _ _ => context.length
  normalize := id
  isEog := fun token => token = 99
  tokenToPiece := fun _ _ => []
  defaultSampler := ()
  newSampler := fun _ _ => ()
  sample := fun _ row _ _ => ({ token := row.headD 0 }, ())
  grammarInit := fun _ => .error "no grammars"
  wouldAccept := fun _ _ => .ok true
  applyGrammar := fun _ row => .ok row
  acceptToken := fun grammar _ => .ok grammar

/-- The counting network with a text: its first tokens spell `a`, `b` and `é`. -/
def spelling : Model :=
  { counting with
    tokenToPiece := fun token _ =>
      if token = 1 then [0x61] else if token = 2 then [0x62] else if token = 3 then [0xC3, 0xA9]
      else [] }

end Model

end Iian
