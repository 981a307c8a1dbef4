import Iian.Handles
import Iian.Network
import Iian.Unfit

/- Whether the outputs of one request can end the others: an exception in a turn of
`process_outputs` reaches the handler of `run_loop`, an abort ends the process. -/
namespace Iian

open List Lib

variable {M : Model} {N : Network}

theorem SamplingParams.validate_topP {params : SamplingParams} {nVocab : Nat}
    (validated : params.validate nVocab = .ok ()) : 0 < params.topP := by
  by_contra none
  unfold validate at validated
  dsimp only [bind, Except.bind, throw, throwThe, MonadExceptOf.throw, pure, Except.pure] at validated
  rw [if_pos (Or.inl (not_lt.mp none))] at validated
  split at validated
  · cases validated
  · split at validated <;> cases validated

variable {gen : Gen N.model} {row : List Score} {sampled : SampledToken Score} {e : Engine M}
    {input : StepInput}

namespace Gen

/-- What a constrained request keeps from its submission on. -/
structure Constrained (gen : Gen N.model) : Prop where
  mass : 0 < gen.sampler.params.topP
  sound : ∀ grammar, gen.grammar = some grammar → grammar.Sound

theorem sampleAllowed_params {grammar : Grammar} {state : SamplerState N.random}
    (sampling : gen.sampleAllowed grammar row = .ok (sampled, state)) :
    state.params = gen.sampler.params := by
  obtain ⟨answer, _, rest⟩ := Outcome.bind_eq_ok sampling
  split at rest
  · cases rest
    rfl
  · obtain ⟨left, _, final⟩ := Outcome.bind_eq_ok rest
    cases final
    rfl

theorem Constrained.sampleToken {next : Gen N.model}
    (sampling : gen.sampleToken row = .ok (sampled, next)) (constrained : gen.Constrained) :
    next.Constrained := by
  unfold Gen.sampleToken at sampling
  dsimp only at sampling
  split at sampling
  · rename_i free
    cases sampling
    exact ⟨constrained.mass, fun grammar held => by cases free.symm.trans held⟩
  · rename_i grammar held
    obtain ⟨⟨drawn, state⟩, allowed, accepting⟩ := Outcome.bind_eq_ok sampling
    obtain ⟨after, accepted, final⟩ := Outcome.bind_eq_ok accepting
    cases final
    refine ⟨?_, ?_⟩
    · change 0 < state.params.topP
      rw [sampleAllowed_params allowed]
      exact constrained.mass
    · intro other same
      cases same
      exact Grammar.accept_sound (constrained.sound grammar held) accepted

theorem Constrained.step {maxModelLen : Nat} {next : Gen N.model} {stop : Option FinishReason}
    (stepped : gen.step maxModelLen row = .ok (sampled, next, stop)) (constrained : gen.Constrained) :
    next.Constrained := by
  obtain ⟨middle, sampling, pushed⟩ := step_pushes stepped
  have kept := constrained.sampleToken sampling
  have core := pushToken_core maxModelLen middle sampled.token
  rw [pushed] at core
  simp only [Gen.core, Prod.mk.injEq] at core
  obtain ⟨_, _, _, sampler, grammar⟩ := core
  refine ⟨?_, ?_⟩
  · rw [sampler]
    exact kept.mass
  · rw [grammar]
    exact kept.sound

end Gen

namespace Request

variable {r : Request N.model}

end Request

namespace Engine

variable {logits : List (List M.Logit)}

/-- Every row of the batch that belongs to a constrained request can be sampled. -/
def Samplable (e : Engine N.model) (scheduled : List ScheduledRequest) : Prop :=
  ∀ turn ∈ scheduled.zip (Batch.build e.sched scheduled).logitRows,
    ∀ r ∈ e.sched.running, r.id = turn.1.req → ∀ grammar, r.grammar = some grammar →
    ∀ first, turn.2 = some first →
    ∀ row ∈ (((Batch.build e.sched scheduled).logits
      ((Batch.build e.sched scheduled).write e.cells)).drop first).take (turn.1.nSpec + 1),
      r.toGen.Samplable grammar row

variable {e : Engine N.model} {service : Service N.model} {known : Registration → Prop}
  {cfg : EngineConfig} {actions : List Action}

theorem Submitted.constrained {r : Request N.model} (submitted : Submitted N.model cfg actions r) :
    r.toGen.Constrained := by
  cases submitted with
  | @generation before prompt params opts grammar id called made =>
    obtain ⟨_, _, validated⟩ := submit_accepted (toOption_ok called.returned)
    refine ⟨SamplingParams.validate_topP validated, ?_⟩
    intro other held
    change grammar = some other at held
    unfold grammarOf at made
    split at made
    · cases made
      cases held
    change (N.parse params >>= Grammar.init).map some = _ at made
    rw [held] at made
    cases parsed : N.parse params with
    | error message =>
      rw [parsed] at made
      cases made
    | ok ruleSet =>
      rw [parsed] at made
      change (Grammar.init ruleSet).map some = _ at made
      cases start : Grammar.init ruleSet with
      | error message =>
        rw [start] at made
        cases made
      | ok grammar =>
        rw [start] at made
        cases made
        exact Grammar.init_sound start
  | embedding => exact ⟨zero_lt_one, nofun⟩

end Engine

end Iian
