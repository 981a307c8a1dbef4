import Iian.Decode
import Iian.GrammarAccept
import Iian.SamplerDraw
import Mathlib.Algebra.Order.Field.Basic

/- The model with the sampler and the grammar engine of the repository in it. The network,
the tokenizer, `expf`, the random source and the parser of grammars are given. -/
namespace Iian

structure Network where
  KV : Type
  nVocab : Nat
  nEmbd : Nat
  keyValue : List (Option KV) → Token → KV
  logits : List (Option KV) → Token → List Score
  hidden : List (Option KV) → Token → Fin nEmbd → ℚ
  normalize : (Fin nEmbd → ℚ) → Fin nEmbd → ℚ
  isEog : Token → Bool
  tokenToPiece : Token → Bool → Bytes
  exponential : Exponential ℚ
  random : RandomSource ℚ
  parse : SamplingParams → Except String RuleSet

namespace Network

/-- The text of a token for the grammar, special tokens included. -/
def piece (N : Network) (token : Token) : Bytes := N.tokenToPiece token true

abbrev model (N : Network) : Model where
  Logit := Score
  KV := N.KV
  Sampler := SamplerState N.random
  Grammar := Grammar
  nVocab := N.nVocab
  nEmbd := N.nEmbd
  negInf := ⊥
  keyValue := N.keyValue
  logits := N.logits
  hidden := N.hidden
  normalize := N.normalize
  isEog := N.isEog
  tokenToPiece := N.tokenToPiece
  defaultSampler := { rng := N.random.seed 5489 }
  newSampler := SamplerState.new N.random
  sample := SamplerState.sample N.exponential
  grammarInit := fun params => N.parse params >>= Grammar.init
  wouldAccept := Grammar.wouldAccept N.isEog N.piece
  applyGrammar := fun grammar row => grammar.apply N.isEog N.piece ⊥ row
  acceptToken := Grammar.accept N.isEog N.piece

end Network

namespace SamplerState

variable {K : Type} [Field K] [LinearOrder K] [FloorRing K] {R : RandomSource K}
  (E : Exponential K) (s : SamplerState R) (row : List (WithBot K)) (prompt output : List Token)

theorem sample_token : (s.sample E row prompt output).1.token =
    ((Sampler.choose E R s.params s.rng (s.params.process prompt output row)).1 : Nat) := by
  unfold sample
  dsimp only
  split <;> rfl

end SamplerState

variable {grammar : Grammar} {row : List Score}

namespace Gen

variable {N : Network} (gen : Gen N.model)

/-- The value of the random source that a second sample of the turn would use. -/
def secondDraw : ℚ := (N.random.uniform (N.random.uniform gen.sampler.rng).2).1

/-- The row of a turn as the sampler draws from it. -/
def processed (row : List Score) : List Score :=
  gen.sampler.params.process (gen.tokens.take gen.nPrompt) (gen.tokens.drop gen.nPrompt) row

theorem processed_entrywise : Entrywise gen.processed := gen.sampler.params.process_entrywise _ _

/-- The row of a constrained request can be sampled: the rules have character elements only
and expand, no text has a zero code point, some token passes the grammar and every mask, and
the random source does not return 0 for a second sample. -/
structure Samplable (grammar : Grammar) (row : List Score) : Prop where
  chars : grammar.rules.CharsOnly
  expands : grammar.rules.Expands
  nonzero : ∀ id : Nat, id < row.length → 0 ∉ (grammar.decode N.piece id).1.dropLast
  some : ∃ id : Nat, id < row.length ∧ grammar.wouldAccept N.isEog N.piece id = .ok true ∧
    (gen.processed (gen.maskMinTokens row)).getD id ⊥ ≠ ⊥
  drawn : gen.sampler.params.isGreedy = true ∨ gen.secondDraw ≠ 0

variable {gen} {left : List Score}

/-- Behind the processors the row has a finite entry for a token that is approved, also when
the grammar has masked the others. -/
theorem Samplable.finite (samplable : gen.Samplable grammar row)
    (kept : left.length = row.length ∧ ∀ id : Nat, grammar.approves N.isEog N.piece id = true →
      left.getD id ⊥ = (gen.maskMinTokens row).getD id ⊥) : ∃ x ∈ gen.processed left, x ≠ ⊥ := by
  obtain ⟨id, inside, asked, finite⟩ := samplable.some
  have approved := (Grammar.wouldAccept_ok asked).symm
  obtain ⟨f, _, entry⟩ := gen.processed_entrywise.getD
  have same : (gen.processed left).getD id ⊥ = (gen.processed (gen.maskMinTokens row)).getD id ⊥ := by
    rw [entry, entry, kept.1, kept.2 id approved]
    exact congrArg (fun count => f count id _) (gen.maskMinTokens_length row).symm
  have short : id < (gen.processed left).length := by
    rw [gen.processed_entrywise.length, kept.1]
    exact inside
  refine ⟨(gen.processed left)[id], List.getElem_mem short, ?_⟩
  rw [← same, List.getD_eq_getElem?_getD, List.getElem?_eq_getElem short] at finite
  exact finite

variable (sound : grammar.Sound) (mass : 0 < gen.sampler.params.topP)
  (samplable : gen.Samplable grammar row)
include sound mass samplable

end Gen

/-- A rational function in place of `expf` for concrete runs. -/
def Exponential.rational : Exponential ℚ where
  exp := fun x => if 0 ≤ x then 1 + x else 1 / (1 - x)
  log := fun p => if 1 ≤ p then p - 1 else 1 - 1 / p
  pos := by
    intro x
    split
    · linarith
    · exact one_div_pos.mpr (by linarith)
  strictMono := by
    intro x y less
    by_cases low : 0 ≤ x
    · rw [if_pos low, if_pos (by linarith)]
      linarith
    rw [if_neg low]
    split
    · have below : 1 / (1 - x) < 1 := (div_lt_one (by linarith)).mpr (by linarith)
      linarith
    · exact one_div_lt_one_div_of_lt (by linarith) (by linarith)
  log_exp := by
    intro x
    by_cases low : 0 ≤ x
    · rw [if_pos low, if_pos (by linarith), add_sub_cancel_left]
    · have below : 1 / (1 - x) < 1 := (div_lt_one (by linarith)).mpr (by linarith)
      rw [if_neg low, if_neg (not_le_of_gt below), one_div_one_div, sub_sub_cancel]

/-- A source that always returns the middle of the interval. -/
def RandomSource.middle : RandomSource ℚ where
  State := Unit
  seed := fun _ => ()
  uniform := fun _ => (1 / 2, ())
  nonneg := fun _ => by norm_num
  lt_one := fun _ => by norm_num

/-- The rules of `root ::= "a"`. -/
def RuleSet.letter : RuleSet where
  rules := [[⟨.char, 0x61⟩, ⟨.endRule, 0⟩]]
  start := 0
  shaped := by decide
  defined := by decide
  start_lt := by decide

/-- A vocabulary of `a`, `b` and an end-of-generation token, and a network that always prefers
the first token. Every grammar is `root ::= "a"`. -/
def Network.letters (eog : Token) : Network where
  KV := Unit
  nVocab := 3
  nEmbd := 1
  keyValue := fun _ _ => ()
  logits := fun _ _ => [3, 2, 1]
  hidden := fun _ _ _ => 0
  normalize := id
  isEog := fun token => token = eog
  tokenToPiece := fun token _ => if token = eog then [] else if token = 1 then [0x61] else [0x62]
  exponential := .rational
  random := .middle
  parse := fun _ => .ok .letter

end Iian
