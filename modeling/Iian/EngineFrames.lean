import Iian.Engine

/- What the turns of single requests leave alone: the side of the engine its clients write
to, which is read only in the ingest at the beginning of a step, the cells, and the queues
of the requests that have ended. -/
namespace Iian

open List

variable {M : Model}

variable {R : Engine M → Engine M → Prop}

namespace Engine

/-- A relation between an engine and a later one that holds over the turns of requests
which end without an error. -/
structure TurnFrame (R : Engine M → Engine M → Prop) : Prop where
  refl : ∀ e, R e e
  trans : ∀ {e middle next}, R e middle → R middle next → R e next
  access : ∀ e id, R e (e.access id)
  store : ∀ e r, R e (e.store r)
  ends : ∀ e r status why, R e (e.finish r status why)

/-- The same, with errors. -/
structure Frame (R : Engine M → Engine M → Prop) : Prop extends TurnFrame R where
  finish : ∀ e r status why error, R e (e.finish r status why error)

theorem Frame.of (refl : ∀ e, R e e)
    (trans : ∀ {e middle next}, R e middle → R middle next → R e next)
    (access : ∀ e id, R e (e.access id)) (store : ∀ e r, R e (e.store r))
    (finish : ∀ e r status why error, R e (e.finish r status why error)) : Frame R :=
  ⟨⟨refl, trans, access, store, fun e r status why => finish e r status why ""⟩, finish⟩

namespace TurnFrame

variable {R : Engine M → Engine M → Prop} (frame : TurnFrame R)

include frame

theorem foldl {β : Type} {turn : Engine M → β → Engine M} (one : ∀ e item, R e (turn e item))
    (items : List β) (e : Engine M) : R e (items.foldl turn e) := by
  induction items generalizing e with
  | nil => exact frame.refl e
  | cons item items ih => exact frame.trans (one e item) (ih _)

theorem finishAbort (e : Engine M) (id : Nat) : R e (e.finishAbort id) := by
  unfold Engine.finishAbort
  split
  · exact frame.refl e
  · exact frame.ends ..

theorem embedTurn (hidden : List M.Embedding) (e : Engine M)
    (turn : ScheduledRequest × Option (Nat × Nat)) : R e (Engine.embedTurn hidden e turn) := by
  have first := frame.access e turn.1.req
  unfold Engine.embedTurn
  dsimp only
  split
  · exact first
  split
  · exact first
  · split
    · exact frame.trans first (frame.ends ..)
    · exact frame.trans first (frame.store _ _)

theorem processEmbeddings (e : Engine M) (scheduled : List ScheduledRequest) (batch : Batch)
    (hidden : List M.Embedding) : R e (e.processEmbeddings scheduled batch hidden) := by
  unfold Engine.processEmbeddings
  split
  · exact frame.foldl (frame.embedTurn hidden) _ e
  · exact frame.refl e

theorem outputTurn (logits : List (List M.Logit)) (e : Engine M)
    (turn : ScheduledRequest × Option Nat) : R e (e.outputTurn logits turn).1 := by
  have first := frame.access e turn.1.req
  unfold Engine.outputTurn
  dsimp only
  split
  · exact first
  split
  · exact first
  split
  · exact first
  split
  · exact frame.trans first (frame.store _ _)
  · exact frame.trans first (frame.store _ _)
  · exact frame.trans first (frame.ends ..)
  · exact frame.trans first (frame.store _ _)

theorem outputTurns (logits : List (List M.Logit)) (turns : List (ScheduledRequest × Option Nat))
    (e : Engine M) : R e (Engine.outputTurns logits turns e).1 := by
  induction turns generalizing e with
  | nil => exact frame.refl e
  | cons turn turns ih =>
    have first := frame.outputTurn logits e turn
    unfold Engine.outputTurns
    split
    · rename_i next result
      rw [result] at first
      exact frame.trans first (ih next)
    · exact first

theorem draftTurn (drafts : Nat → List Token) (e : Engine M) (entry : ScheduledRequest) :
    R e (Engine.draftTurn drafts e entry) := by
  have first := frame.access e entry.req
  unfold Engine.draftTurn
  dsimp only
  split
  · exact first
  · split
    · exact frame.trans first (frame.store _ _)
    · exact first

theorem processOutputs (e : Engine M) (scheduled : List ScheduledRequest) (batch : Batch)
    (logits : List (List M.Logit)) (drafts : Nat → List Token) :
    R e (e.processOutputs scheduled batch logits drafts).1 := by
  have outputs := frame.outputTurns logits (scheduled.zip batch.logitRows) e
  unfold Engine.processOutputs
  split
  · rename_i next result
    rw [result] at outputs
    split
    · exact frame.trans outputs (frame.foldl (frame.draftTurn drafts) _ next)
    · exact outputs
  · exact outputs

end TurnFrame

namespace Frame

variable {R : Engine M → Engine M → Prop} (frame : Frame R)

include frame

theorem finishAll (e : Engine M) (status : RequestStatus) (why : FinishReason) (error : String) :
    R e (e.finishAll status why error) :=
  frame.foldl (fun e r => frame.finish e r status why error) _ e

theorem failUnschedulable (e : Engine M) : R e e.failUnschedulable := by
  refine frame.foldl ?_ _ e
  intro e r
  split
  · exact frame.finish ..
  · exact frame.refl e

theorem handle (crash : ∀ e, R e { e with crashed := true }) (result : Engine M × Outcome Bool) :
    R result.1 (Engine.handle result) := by
  unfold Engine.handle
  split
  · exact frame.refl _
  · exact frame.finishAll _ _ _ _
  · exact crash _

end Frame

/-- The configuration, what `submit`, `submit_embedding` and `abort` change, and the cells. -/
structure Ambient (M : Model) where
  cfg : EngineConfig
  cells : Cells M
  newRequests : List (Request M)
  aborts : List Nat
  nextId : Nat
  issued : List Nat

def ambient (e : Engine M) : Ambient M where
  cfg := e.cfg
  cells := e.cells
  newRequests := e.newRequests
  aborts := e.aborts
  nextId := e.nextId
  issued := e.issued

theorem ambient_frame : Frame (fun e next : Engine M => next.ambient = e.ambient) := by
  refine .of (fun _ => rfl) (fun first second => second.trans first) (fun _ _ => rfl)
    (fun _ _ => rfl) ?_
  intro e r status why error
  unfold finish
  split <;> rfl

/-- A request that has ended keeps its queue. -/
theorem done_frame : Frame (fun e next : Engine M => e.done <+: next.done) := by
  refine .of (fun _ => prefix_refl _) (fun first second => first.trans second)
    (fun _ _ => prefix_refl _) (fun _ _ => prefix_refl _) ?_
  intro e r status why error
  unfold finish
  split
  · exact prefix_refl _
  · exact prefix_append _ _

theorem ingest_ambient (e : Engine M) :
    e.ingest.ambient = { e.ambient with newRequests := [], aborts := [] } :=
  ambient_frame.foldl ambient_frame.finishAbort _ _

/-- The cells after the computation of a batch. -/
def written (e : Engine M) (scheduled : List ScheduledRequest) (input : StepInput) : Cells M :=
  let batch := Batch.build e.sched scheduled
  match input.failure with
  | some (_, count) => spoil e.cells (batch.tokens.take count)
  | none => batch.write e.cells

theorem compute_ambient (e : Engine M) (scheduled : List ScheduledRequest) (input : StepInput) :
    (e.compute scheduled input).1.ambient =
      { e.ambient with cells := e.written scheduled input } := by
  unfold compute written
  cases input.failure with
  | some failure => rfl
  | none =>
    dsimp only
    rw [ambient_frame.processOutputs, ambient_frame.processEmbeddings]
    rfl

/-- The engine behind the schedule of a step. -/
abbrev planned (e : Engine M) : Engine M := { e with sched := e.sched.schedule.2 }

/-- What a step computes when it has scheduled something. -/
abbrev computed (e : Engine M) (input : StepInput) : Engine M × Outcome Unit :=
  e.planned.compute (batchOrder e.cfg e.sched.schedule.1.scheduled) input

/-- What a step does after the ingest: nothing, or only the scheduling, or it fails the
requests that do not fit, or it computes a batch. -/
theorem stepBody_cases (e : Engine M) (input : StepInput) :
    (∃ value, (e.stepBody input).2 = .ok value) ∧
        ((e.stepBody input).1 = e ∧ e.sched.hasRequests = false ∨
          e.sched.schedule.1.scheduled = [] ∧ ((e.stepBody input).1 = e.planned ∨
            (e.stepBody input).1 = e.planned.failUnschedulable ∧
              e.sched.schedule.1.preempted = [])) ∨
      e.stepBody input = ((e.computed input).1, (e.computed input).2 >>= fun _ => .ok true) := by
  unfold stepBody computed planned
  split
  · rename_i idle
    exact .inl ⟨⟨_, rfl⟩, .inl ⟨rfl, idle⟩⟩
  generalize e.sched.schedule = result
  obtain ⟨out, sched⟩ := result
  dsimp only
  split
  · rename_i unscheduled
    refine .inl ⟨?_, .inr ⟨List.isEmpty_iff.mp unscheduled, ?_⟩⟩
    · split <;> exact ⟨_, rfl⟩
    split
    · exact .inl rfl
    · rename_i unpreempted
      rw [Bool.not_eq_false] at unpreempted
      exact .inr ⟨rfl, List.isEmpty_iff.mp unpreempted⟩
  · right
    split <;> rename_i result <;> rw [result] <;> rfl

/-- A relation that the commit keeps holds over the computation of a batch, whatever becomes
of the cells. -/
theorem TurnFrame.compute (frame : TurnFrame R) {e : Engine M} (scheduled : List ScheduledRequest)
    (input : StepInput) (committed : ∀ cells (entries : List ScheduledRequest),
      R e { e with cells := cells, sched := e.sched.updateAfterStep entries }) :
    R e (e.compute scheduled input).1 := by
  unfold Engine.compute
  cases input.failure with
  | some failure => exact committed _ []
  | none =>
    exact frame.trans (committed _ _)
      (frame.trans (frame.processEmbeddings _ _ _ _) (frame.processOutputs _ _ _ _ _))

/-- A relation that scheduling and committing keep holds over a step. -/
theorem Frame.stepBody (frame : Frame R) {e : Engine M} (input : StepInput)
    (scheduled : R e e.planned)
    (committed : ∀ cells (entries : List ScheduledRequest), R e.planned
      { e with cells := cells, sched := e.sched.schedule.2.updateAfterStep entries }) :
    R e (e.stepBody input).1 := by
  rcases e.stepBody_cases input with ⟨_, ⟨shape, _⟩ | ⟨_, shape | ⟨shape, _⟩⟩⟩ | shape
  · rw [shape]
    exact frame.refl e
  · rw [shape]
    exact scheduled
  · rw [shape]
    exact frame.trans scheduled (frame.failUnschedulable _)
  · rw [shape]
    exact frame.trans scheduled (frame.compute _ input committed)

/-- The first half of the ingest: the new requests have joined the scheduler. -/
def taken (e : Engine M) : Engine M :=
  { e with
    newRequests := []
    aborts := []
    sched := e.newRequests.foldl Scheduler.addRequest e.sched }

theorem Frame.aborts (frame : Frame R) (e : Engine M) : R e.taken e.ingest :=
  frame.foldl frame.finishAbort e.aborts e.taken

/-- Only the computation of a batch writes cells. -/
theorem stepBody_ambient (e : Engine M) (input : StepInput) :
    (e.stepBody input).1.ambient = e.ambient ∨
      (e.stepBody input).1.ambient = { e.ambient with
        cells := e.planned.written (batchOrder e.cfg e.sched.schedule.1.scheduled) input } := by
  rcases e.stepBody_cases input with ⟨_, ⟨idle, _⟩ | ⟨_, scheduled | ⟨failed, _⟩⟩⟩ | computed
  · exact .inl (by rw [idle])
  · exact .inl (by rw [scheduled]; rfl)
  · exact .inl (by rw [failed]; exact ambient_frame.failUnschedulable _)
  · exact .inr (by rw [computed]; exact compute_ambient _ _ _)

theorem stepBody_done (e : Engine M) (input : StepInput) :
    e.done <+: (e.stepBody input).1.done :=
  done_frame.stepBody input (prefix_refl _) (fun _ _ => prefix_refl _)

theorem handle_ambient (result : Engine M × Outcome Bool) :
    (handle result).ambient = result.1.ambient :=
  ambient_frame.handle (fun _ => rfl) result

theorem handle_done (result : Engine M × Outcome Bool) :
    result.1.done <+: (handle result).done :=
  done_frame.handle (fun _ => prefix_refl _) result

/-- A step empties the lists of new requests and aborts and leaves the rest of the client
side alone. -/
theorem step_ambient (e : Engine M) (input : StepInput) :
    ∃ cells, (handle (e.step input)).ambient =
      { e.ambient with cells := cells, newRequests := [], aborts := [] } := by
  rw [handle_ambient, step]
  rcases e.ingest.stepBody_ambient input with same | written
  · exact ⟨e.cells, by rw [same, ingest_ambient]; rfl⟩
  · exact ⟨_, by rw [written, ingest_ambient]⟩

/-- What `submit` can do: refuse without a trace, refuse the grammar and lose an id, or
queue a new request. -/
theorem submit_cases (e : Engine M) (prompt : List Token) (params : SamplingParams)
    (opts : RequestOptions) :
    (∃ message, e.submit prompt params opts = (.error message, e)) ∨
      (∃ message, e.submit prompt params opts =
        (.error message, { e with nextId := e.nextId + 1 })) ∨
      ∃ grammar, grammarOf M params = .ok grammar ∧
        e.submit prompt params opts = (.ok e.nextId, { e with
          nextId := e.nextId + 1
          newRequests := e.newRequests ++
            [generationRequest M e.cfg.seed e.nextId prompt params opts grammar]
          issued := e.issued ++ [e.nextId] }) := by
  unfold submit
  split
  · exact .inl ⟨_, rfl⟩
  split
  · exact .inl ⟨_, rfl⟩
  split
  · exact .inl ⟨_, rfl⟩
  split
  · exact .inl ⟨_, rfl⟩
  dsimp only
  split
  · exact .inr (.inl ⟨_, rfl⟩)
  · rename_i grammar made
    exact .inr (.inr ⟨grammar, made, rfl⟩)

theorem submitEmbedding_cases (e : Engine M) (prompt : List Token) (pooling : Pooling)
    (normalize : Bool) (opts : RequestOptions) :
    (∃ message, e.submitEmbedding prompt pooling normalize opts = (.error message, e)) ∨
      e.submitEmbedding prompt pooling normalize opts = (.ok e.nextId, { e with
        nextId := e.nextId + 1
        newRequests := e.newRequests ++ [embeddingRequest M e.nextId prompt pooling normalize opts]
        issued := e.issued ++ [e.nextId] }) := by
  unfold submitEmbedding
  split
  · exact .inl ⟨_, rfl⟩
  · split
    · exact .inl ⟨_, rfl⟩
    · exact .inr rfl

/-- The engine thread has done nothing. -/
structure Unserved (e next : Engine M) : Prop where
  sched : next.sched = e.sched
  cells : next.cells = e.cells
  done : next.done = e.done
  accesses : next.accesses = e.accesses
  crashed : next.crashed = e.crashed

/-- Only the step of a live engine touches the requests it serves. -/
theorem act_cases (e : Engine M) (action : Action) :
    (∃ input, action = .step input ∧ e.crashed = false ∧ e.act action = handle (e.step input)) ∨
      (∀ input, action = .step input → e.crashed = true) ∧ Unserved e (e.act action) := by
  unfold act
  split
  · rename_i dead
    exact .inr ⟨fun _ _ => dead, rfl, rfl, rfl, rfl, rfl⟩
  rename_i alive
  cases action with
  | submit prompt params opts =>
    refine .inr ⟨nofun, ?_⟩
    dsimp only
    rcases e.submit_cases prompt params opts with
      ⟨_, shape⟩ | ⟨_, shape⟩ | ⟨_, _, shape⟩ <;> rw [shape] <;> exact ⟨rfl, rfl, rfl, rfl, rfl⟩
  | submitEmbedding prompt pooling normalize opts =>
    refine .inr ⟨nofun, ?_⟩
    dsimp only
    rcases e.submitEmbedding_cases prompt pooling normalize opts with
      ⟨_, shape⟩ | shape <;> rw [shape] <;> exact ⟨rfl, rfl, rfl, rfl, rfl⟩
  | abort id => exact .inr ⟨nofun, rfl, rfl, rfl, rfl, rfl⟩
  | step input => exact .inl ⟨input, rfl, by simpa using alive, rfl⟩

end Engine

end Iian
