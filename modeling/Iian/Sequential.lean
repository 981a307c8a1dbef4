import Iian.EngineRun

/- A served generation request against the decoder that serves it alone: one token a turn,
from the logits of its whole token list. -/
namespace Iian

variable {M : Model}

theorem Engine.continued_toGen (cfg : EngineConfig) (r : Request M) :
    (lookupDrafts cfg r).deliver.toGen = r.toGen := by
  rw [Request.deliver_fields, lookupDrafts_fields]

namespace Service

variable {service : Service M}

/-- With exact rows, serving a request is some turns of its decoder. -/
theorem Lives.decoded (exact : service.exact) {r : Request M} (lives : service.Lives r) :
    ∃ start, service.fresh start ∧ start.id = r.id ∧ start.isEmbedding = r.isEmbedding ∧
      ∃ turns, ∀ fuel, start.decode M.prefixLogits service.cfg.maxModelLen (turns + fuel) =
        r.decode M.prefixLogits service.cfg.maxModelLen fuel := by
  induction lives with
  | @submit r fresh => exact ⟨r, fresh, rfl, rfl, 0, fun fuel => by rw [Nat.zero_add]⟩
  | @place r next _ same ih =>
    obtain ⟨start, fresh, id, kind, turns, decoded⟩ := ih
    have gen : next.toGen = r.toGen := congrArg (fun r => r.toGen) same
    refine ⟨start, fresh, id.trans (congrArg (fun r => r.id) same).symm,
      kind.trans (congrArg (fun r => r.isEmbedding) same).symm, turns, ?_⟩
    rw [gen]
    exact decoded
  | @sample r next nSpec rows _ generation drafts computed rowsOf verified ih =>
    obtain ⟨start, fresh, id, kind, turns, decoded⟩ := ih
    have fields := (Request.verify_ok drafts computed
      (show _ = (next, RowsEnd.ofStop none) from verified)).fields
    rw [rowsOf exact] at verified
    obtain ⟨more, _, _, _, simulated⟩ :=
      (Request.verify_decode M.prefixLogits _ drafts computed verified).1 rfl
    refine ⟨start, fresh, ?_, ?_, turns + (more + 1), ?_⟩
    · rw [Request.deliver_fields, Engine.lookupDrafts_fields, fields]
      exact id
    · rw [Request.deliver_fields, Engine.lookupDrafts_fields, fields]
      exact kind
    · intro fuel
      rw [Engine.continued_toGen, ← simulated, Nat.add_assoc, decoded]
  | draft _ _ _ _ ih => exact ih
  | pool _ _ _ _ _ _ ih => exact ih

/-- A request that ends with STOP or LENGTH has the tokens and the finish reason of its
decoder. -/
theorem Ended.decoded (exact : service.exact) {last : Request M} (ended : service.Ended last)
    (generation : last.isEmbedding = false)
    (kind : last.finishReason = .stop ∨ last.finishReason = .length) :
    ∃ start, service.fresh start ∧ start.id = last.id ∧ start.isEmbedding = false ∧
      (start.decode M.prefixLogits service.cfg.maxModelLen
        (start.turns service.cfg.maxModelLen)).1.tokens = last.tokens ∧
      (start.decode M.prefixLogits service.cfg.maxModelLen
        (start.turns service.cfg.maxModelLen)).2 = .stop last.finishReason := by
  cases ended with
  | @cut r _ status why error _ cause same =>
    have reason : last.finishReason = why := congrArg (fun r => r.finishReason) same
    rw [reason] at kind
    rcases cause with rfl | rfl <;> rcases kind with impossible | impossible <;> cases impossible
  | @embedded r _ start rows _ embedding _ _ _ _ same =>
    have flag : last.isEmbedding = r.isEmbedding := congrArg (fun r => r.isEmbedding) same
    rw [flag, embedding] at generation
    cases generation
  | @stop r next _ nSpec rows why lives old drafts computed rowsOf verified same =>
    have fields := (Request.verify_ok drafts computed
      (show _ = (next, RowsEnd.ofStop (some why)) from verified)).fields
    have tokens : last.tokens = next.tokens := congrArg (fun r => r.tokens) same
    have reason : last.finishReason = why := congrArg (fun r => r.finishReason) same
    have handle : last.id = r.id := by
      rw [show last.id = next.id from congrArg (fun r => r.id) same, fields]
    obtain ⟨start, fresh, id, before, turns, decoded⟩ := lives.decoded exact
    rw [rowsOf exact] at verified
    have final := (Request.verify_decode M.prefixLogits _ drafts computed verified).2 (by simp) 0
    rw [← decoded] at final
    have result := Gen.decode_eq M.prefixLogits service.cfg.maxModelLen
      (Gen.decode_ends M.prefixLogits service.cfg.maxModelLen
        (Nat.le_refl (start.turns service.cfg.maxModelLen)))
      (show (start.decode M.prefixLogits _ (turns + (nSpec + 1 + 0))).2 ≠ .next by
        rw [final]; simp)
    refine ⟨start, fresh, id.trans handle.symm, before.trans old, ?_, ?_⟩
    · rw [result, final, tokens]
    · rw [result, final, reason]

end Service

namespace Engine

/-- Scheduling refines sequential decoding: a generation request that ends with STOP or
LENGTH has the tokens of the decoder that serves it alone. Batching, chunks, prefix hits,
eviction, preemption and drafts do not show. -/
theorem run_sequential (M : Model) (cfg : EngineConfig) (actions : List Action)
    (free : CollisionFree cfg.blockSize (chains M cfg actions)) {before : List Action}
    {prompt : List Token} {params : SamplingParams} {opts : RequestOptions}
    {grammar : Option M.Grammar} {id : Nat}
    (called : Called M cfg actions before (.submit prompt params opts) id)
    (made : grammarOf M params = .ok grammar) {r : Request M}
    (done : r ∈ (run M cfg actions).done) (same : r.id = id)
    (kind : r.finishReason = .stop ∨ r.finishReason = .length) :
    let start := startGen M cfg.seed id prompt params grammar
    let result := start.decode M.prefixLogits cfg.maxModelLen (start.turns cfg.maxModelLen)
    r.tokens = result.1.tokens ∧ result.2 = .stop r.finishReason := by
  have ended := (run_invariant M cfg actions).ended r done
  obtain ⟨origin, submitted, asked, _⟩ := ended.origin
  have generation : r.isEmbedding = false := by
    have handle : origin.id = r.id := congrArg (fun asked => asked.1) asked
    have flag : origin.isEmbedding = r.isEmbedding := congrArg (fun asked => asked.2.2.1) asked
    rw [← flag, submitted.generation_eq called made (handle.trans same)]
    rfl
  obtain ⟨first, fresh, handle, _, tokens, reason⟩ := ended.decoded free generation kind
  rw [Submitted.generation_eq called made fresh (handle.trans same)] at tokens reason
  exact ⟨tokens.symm, reason⟩

def sharedConfig : EngineConfig where
  maxModelLen := 20
  blockSize := 2
  numBlocks := 4
  blockSize_pos := Nat.two_pos
  sched := { maxNumBatchedTokens := 3 }

/-- Two requests with a common prefix under a small budget and pool: the second one adopts a
block, is computed in chunks beside the first one, is preempted and resumes. -/
def sharedRun : List Action :=
  [.submit [1, 2, 3] { maxTokens := 4 } {}, .submit [1, 2, 3, 3, 4] { maxTokens := 3 } {}, .step {},
    .step {}, .step {}, .step {}, .step {}, .step {}, .step {}]

theorem run_sequential_sharedRun :
    ∃ r ∈ (run Model.counting sharedConfig sharedRun).done,
      let start := startGen Model.counting 0 2 [1, 2, 3, 3, 4] { maxTokens := 3 } none
      let result := start.decode Model.counting.prefixLogits 20 (start.turns 20)
      r.numPreemptions = 1 ∧ r.numCachedTokens = 2 ∧
        r.tokens = result.1.tokens ∧ result.2 = .stop r.finishReason := by
  have found : ∃ r ∈ (run Model.counting sharedConfig sharedRun).done, r.id = 2 ∧
      r.finishReason = .length ∧ r.numPreemptions = 1 ∧ r.numCachedTokens = 2 := by
    decide +kernel
  have held : ∀ before ∈ sharedRun.inits,
      ∀ r ∈ (run Model.counting sharedConfig before).newRequests ++
        (run Model.counting sharedConfig before).sched.allRequests,
        r.opts.cacheSalt = 0 ∧ r.tokens <+: [1, 2, 3, 3, 4, 5, 6, 7] := by
    decide +kernel
  have free := @collisionFree_of_line _ sharedConfig _ _ _ (by decide +kernel) held
  have called : Called Model.counting sharedConfig sharedRun (sharedRun.take 1)
      (.submit [1, 2, 3, 3, 4] { maxTokens := 3 } {}) 2 := ⟨⟨sharedRun.drop 2, rfl⟩, rfl, rfl⟩
  obtain ⟨r, member, handle, reason, preempted, cached⟩ := found
  exact ⟨r, member, preempted, cached,
    run_sequential Model.counting sharedConfig sharedRun free called rfl member handle (.inr reason)⟩

end Engine

end Iian
