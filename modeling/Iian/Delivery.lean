import Iian.Streaming

/- The tokens and log-probabilities of the chunks of a request against the tokens it has
generated. A sampled token is pending until `deliver` or `finish` moves it into a chunk. -/
namespace Iian

open List

variable {M : Model}

variable {r : Request M}

namespace Request

/-- The tokens of all chunks pushed to the queue of a request. -/
def sentTokens (r : Request M) : List Token := r.out.flatMap (fun chunk => chunk.tokens)

def sentLogprobs (r : Request M) : List (SampledToken M.Logit) :=
  r.out.flatMap (fun chunk => chunk.logprobs)

/-- Every generated token has been sent once or is pending, in order. -/
structure Delivers (r : Request M) : Prop where
  prompt : r.nPrompt ≤ r.tokens.length
  tokens : r.sentTokens ++ r.pendingTokens = r.outputs
  logprobs : 0 ≤ r.params.logprobs →
    (r.sentLogprobs ++ r.pendingLogprobs).map (fun sampled => sampled.token) = r.outputs

theorem Delivers.start {r : Request M} (prompt : r.nPrompt = r.tokens.length) (out : r.out = [])
    (pending : r.pendingTokens = []) (entries : r.pendingLogprobs = []) : r.Delivers := by
  have blank : r.outputs = [] := by
    rw [Gen.outputs, prompt, drop_length]
  refine ⟨Nat.le_of_eq prompt, ?_, ?_⟩
  · rw [sentTokens, out, pending, blank]
    rfl
  · intro _
    rw [sentLogprobs, out, entries, blank]
    rfl

variable (delivers : r.Delivers)

include delivers

theorem Delivers.congr {next : Request M} (gen : next.toGen = r.toGen) (out : next.out = r.out)
    (pending : next.pendingTokens = r.pendingTokens)
    (entries : next.pendingLogprobs = r.pendingLogprobs) : next.Delivers := by
  refine ⟨?_, ?_, ?_⟩
  · rw [gen]
    exact delivers.prompt
  · rw [sentTokens, out, pending, gen]
    exact delivers.tokens
  · rw [sentLogprobs, out, entries, gen]
    exact delivers.logprobs

/-- A sampled token becomes pending, with its log-probabilities if they are asked for. -/
theorem Delivers.pushRow {maxModelLen : Nat} {row : List M.Logit} {sampled : SampledToken M.Logit}
    {gen : Gen M} {stop : Option FinishReason}
    (stepped : r.step maxModelLen row = .ok (sampled, gen, stop)) :
    (r.pushRow sampled gen).Delivers := by
  have facts := Gen.step_ok stepped
  have outputs : gen.outputs = r.outputs ++ [sampled.token] := by
    rw [Gen.outputs, facts.tokens, facts.nPrompt, drop_append_of_le_length delivers.prompt]
    rfl
  refine ⟨?_, ?_, ?_⟩
  · change gen.nPrompt ≤ gen.tokens.length
    have prompt := delivers.prompt
    rw [facts.nPrompt, facts.tokens, length_append]
    omega
  · change r.sentTokens ++ (r.pendingTokens ++ [sampled.token]) = gen.outputs
    rw [outputs, ← delivers.tokens, append_assoc]
  · change 0 ≤ gen.params.logprobs → _
    intro asked
    rw [facts.params] at asked
    change (r.sentLogprobs ++ (if 0 ≤ r.params.logprobs then _ else _)).map _ = gen.outputs
    rw [if_pos asked, outputs, ← delivers.logprobs asked, ← append_assoc, map_append]
    rfl

/-- A chunk takes everything that is pending. -/
theorem Delivers.push {next : Request M} {chunk : OutputChunk M}
    (tokens : chunk.tokens = r.pendingTokens) (entries : chunk.logprobs = r.pendingLogprobs)
    (prompt : next.nPrompt = r.nPrompt) (fed : next.tokens = r.tokens)
    (params : next.params = r.params) (out : next.out = r.out ++ [chunk])
    (pending : next.pendingTokens = []) (none : next.pendingLogprobs = []) : next.Delivers := by
  have outputs : next.outputs = r.outputs := by
    rw [Gen.outputs, fed, prompt]
    rfl
  refine ⟨?_, ?_, ?_⟩
  · rw [prompt, fed]
    exact delivers.prompt
  · rw [outputs, ← delivers.tokens, sentTokens, out, pending, flatMap_append]
    simp [sentTokens, tokens]
  rw [params]
  intro asked
  rw [outputs, ← delivers.logprobs asked, sentLogprobs, out, none, flatMap_append]
  simp [sentLogprobs, entries]

theorem Delivers.deliver : r.deliver.Delivers := by
  unfold Request.deliver
  split
  · exact delivers
  · exact delivers.push rfl rfl rfl rfl rfl rfl rfl rfl

theorem Delivers.close (status : RequestStatus) (why : FinishReason) (error : String) :
    (r.close status why error).Delivers :=
  delivers.push rfl rfl rfl rfl rfl rfl rfl rfl

theorem Delivers.verify (maxModelLen nSpec : Nat) (rows : List (List M.Logit)) :
    (r.verify maxModelLen rows nSpec).1.Delivers :=
  verify_keeps (fun stepped kept => kept.pushRow stepped)
    (fun _ kept => kept.congr rfl rfl rfl rfl) rows nSpec delivers

/-- Nothing is pending any more, so everything generated has been sent. -/
theorem Delivers.sent (pending : r.pendingTokens = []) (entries : r.pendingLogprobs = []) :
    r.sentTokens = r.outputs ∧
      (0 ≤ r.params.logprobs → r.sentLogprobs.map (fun sampled => sampled.token) = r.outputs) := by
  obtain ⟨_, tokens, logprobs⟩ := delivers
  rw [pending, append_nil] at tokens
  rw [entries, append_nil] at logprobs
  exact ⟨tokens, logprobs⟩

end Request

namespace Service

variable {service : Service M}

theorem Lives.delivers (start : ∀ r, service.fresh r → r.Delivers) (lives : service.Lives r) :
    r.Delivers := by
  induction lives with
  | submit fresh => exact start _ fresh
  | place _ same ih =>
    exact ih.congr (congrArg (fun r => r.toGen) same) (congrArg (fun r => r.out) same)
      (congrArg (fun r => r.pendingTokens) same) (congrArg (fun r => r.pendingLogprobs) same)
  | @sample r next nSpec rows _ _ _ _ _ verified ih =>
    have delivers := ih.verify service.cfg.maxModelLen nSpec rows
    rw [verified] at delivers
    apply Request.Delivers.deliver
    apply delivers.congr <;> rw [Engine.lookupDrafts_fields]
  | draft _ _ _ _ ih => exact ih.congr rfl rfl rfl rfl
  | pool _ _ _ _ _ _ ih => exact ih.congr rfl rfl rfl rfl

/-- Whatever ends a request, its terminal chunk takes what was still pending. -/
theorem Ended.sent (start : ∀ r, service.fresh r → r.Delivers) {last : Request M}
    (ended : service.Ended last) :
    last.sentTokens = last.outputs ∧
      (0 ≤ last.params.logprobs →
        last.sentLogprobs.map (fun sampled => sampled.token) = last.outputs) := by
  have closed : ∀ {r : Request M} {status why error}, r.Delivers →
      last.content = (r.close status why error).content →
      last.sentTokens = last.outputs ∧ (0 ≤ last.params.logprobs →
        last.sentLogprobs.map (fun sampled => sampled.token) = last.outputs) := by
    intro r status why error delivers same
    have final : last.Delivers :=
      (delivers.close status why error).congr (congrArg (fun r => r.toGen) same)
        (congrArg (fun r => r.out) same) (congrArg (fun r => r.pendingTokens) same)
        (congrArg (fun r => r.pendingLogprobs) same)
    exact final.sent (congrArg (fun r => r.pendingTokens) same)
      (congrArg (fun r => r.pendingLogprobs) same)
  cases ended with
  | cut lives _ same => exact closed (lives.delivers start) same
  | @stop r next last nSpec rows _ lives _ _ _ _ verified same =>
    have delivers := (lives.delivers start).verify service.cfg.maxModelLen nSpec rows
    rw [verified] at delivers
    exact closed delivers same
  | @embedded r _ _ rows lives _ _ _ _ _ same =>
    have delivers : ((r.poolRows rows).embed).Delivers :=
      (lives.delivers start).congr rfl rfl rfl rfl
    exact closed delivers same

end Service

namespace Engine

theorem Submitted.delivers {cfg : EngineConfig} {actions : List Action}
    (submitted : Submitted M cfg actions r) : r.Delivers := by
  cases submitted with
  | generation _ _ => exact .start rfl rfl rfl rfl
  | embedding _ => exact .start rfl rfl rfl rfl

/-- The chunks of a request that has left the engine carry every generated token exactly once
and in order, and, if log-probabilities are asked for, an entry for each in the same order. -/
theorem run_sends_outputs (M : Model) (cfg : EngineConfig) (actions : List Action) :
    ∀ r ∈ (run M cfg actions).done, r.sentTokens = r.tokens.drop r.nPrompt ∧
      (0 ≤ r.params.logprobs →
        r.sentLogprobs.map (fun sampled => sampled.token) = r.tokens.drop r.nPrompt) := by
  intro r done
  have ended := (run_invariant M cfg actions).ended r done
  exact ended.sent (fun _ => Submitted.delivers)

/-- A request that is aborted behind its second token. -/
def abortedRun : List Action :=
  [.submit [5] { logprobs := 0 } {}, .step {}, .step {}, .abort 1, .step {}]

theorem run_sends_outputs_aborted :
    ∃ r ∈ (run Model.spelling streamConfig abortedRun).done,
      r.finishReason = .abort ∧ (r.tokens.drop r.nPrompt).length = 2 ∧
      r.sentTokens = r.tokens.drop r.nPrompt ∧
      r.sentLogprobs.map (fun sampled => sampled.token) = r.tokens.drop r.nPrompt := by
  have found : ∃ r ∈ (run Model.spelling streamConfig abortedRun).done,
      r.finishReason = .abort ∧ (r.tokens.drop r.nPrompt).length = 2 ∧ 0 ≤ r.params.logprobs := by
    decide +kernel
  obtain ⟨r, done, reason, count, asked⟩ := found
  obtain ⟨tokens, logprobs⟩ := run_sends_outputs Model.spelling streamConfig abortedRun r done
  exact ⟨r, done, reason, count, tokens, logprobs asked⟩

end Engine

end Iian
