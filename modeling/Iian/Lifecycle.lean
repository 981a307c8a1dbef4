import Iian.OutputQueue
import Iian.QueueOrder

/- The requests between two steps: how long they are, how far they have been computed and
how many of them run. -/
namespace Iian

open List Lib

variable {M : Model}

variable {r : Request M} {id : Nat} {s : Scheduler M} {cells : Cells M}
    {turns : List (Batch.Turn M)} {logits : List (List M.Logit)} {input : StepInput}

namespace Request

/-- A request fits the context, and a generation request has room for one more token. -/
structure Sized (limit : Nat) (r : Request M) : Prop where
  some : 0 < r.nTokens
  most : r.nTokens ≤ limit
  room : r.isEmbedding = false → r.nTokens < limit

theorem Sized.congr {limit : Nat} {next : Request M} (sized : r.Sized limit)
    (tokens : next.tokens = r.tokens) (kind : next.isEmbedding = r.isEmbedding) :
    next.Sized limit := by
  have same : next.nTokens = r.nTokens := congrArg List.length tokens
  refine ⟨?_, ?_, ?_⟩ <;> rw [same]
  · exact sized.some
  · exact sized.most
  · rw [kind]
    exact sized.room

end Request

theorem Service.Lives.sized {service : Service M}
    (fresh : ∀ r, service.fresh r → r.Sized service.cfg.maxModelLen) (lives : service.Lives r) :
    r.Sized service.cfg.maxModelLen := by
  induction lives with
  | submit submitted => exact fresh _ submitted
  | @place r next _ same ih =>
    exact ih.congr (congrArg (fun r => r.tokens) same) (congrArg (fun r => r.isEmbedding) same)
  | @sample r next nSpec rows _ generation drafts computed _ verified ih =>
    have facts := Request.verify_ok drafts computed
      (show _ = (next, RowsEnd.ofStop none) from verified)
    have short := (Request.verify_next drafts computed verified).2 (ih.room generation)
    have grown : r.nTokens ≤ next.nTokens := by
      obtain ⟨_, _, _, front⟩ := facts.accepted
      exact ((prefix_append _ _).trans front).length_le
    have sized : next.Sized service.cfg.maxModelLen :=
      ⟨Nat.lt_of_lt_of_le ih.some grown, Nat.le_of_lt short, fun _ => short⟩
    refine sized.congr ?_ ?_ <;> rw [Request.deliver_fields, Engine.lookupDrafts_fields]
  | draft _ _ _ _ ih => exact ih.congr rfl rfl
  | pool _ _ _ _ _ _ ih => exact ih.congr rfl rfl

namespace Engine

variable {e : Engine M} {opts : RequestOptions} {prompt : List Token}

theorem submit_accepted {params : SamplingParams}
    (accepted : (e.submit prompt params opts).1 = .ok id) :
    0 < prompt.length ∧ prompt.length < e.cfg.maxModelLen ∧ params.validate M.nVocab = .ok () := by
  unfold submit at accepted
  split at accepted
  · cases accepted
  rename_i nonempty
  split at accepted
  · cases accepted
  rename_i validated
  split at accepted
  · cases accepted
  split at accepted
  · cases accepted
  rename_i short
  refine ⟨?_, Nat.lt_of_not_le short, validated⟩
  rw [length_pos_iff]
  intro empty
  exact nonempty (List.isEmpty_iff.mpr empty)

theorem submitEmbedding_accepted {pooling : Pooling} {normalize : Bool}
    (accepted : (e.submitEmbedding prompt pooling normalize opts).1 = .ok id) :
    0 < prompt.length ∧ prompt.length ≤ e.cfg.maxModelLen := by
  unfold submitEmbedding at accepted
  split at accepted
  · cases accepted
  rename_i checked
  split at accepted
  · cases accepted
  rename_i short
  refine ⟨?_, Nat.le_of_not_lt short⟩
  rw [length_pos_iff]
  intro empty
  rw [checkPrompt, empty] at checked
  cases checked

theorem toOption_ok {α ε : Type} {result : Except ε α} {value : α}
    (returned : result.toOption = some value) : result = .ok value := by
  cases result with
  | error message => cases returned
  | ok found => exact congrArg Except.ok (Option.some.inj returned)

theorem Submitted.sized {cfg : EngineConfig} {actions : List Action}
    (submitted : Submitted M cfg actions r) : r.Sized cfg.maxModelLen := by
  cases submitted with
  | @generation before prompt params opts grammar id called made =>
    obtain ⟨some, short, _⟩ := submit_accepted (toOption_ok called.returned)
    rw [(run_invariant M cfg before).cfg] at short
    exact ⟨some, Nat.le_of_lt short, fun _ => short⟩
  | @embedding before prompt pooling normalize opts id called =>
    obtain ⟨some, short⟩ := submitEmbedding_accepted (toOption_ok called.returned)
    rw [(run_invariant M cfg before).cfg] at short
    exact ⟨some, short, nofun⟩

theorem run_sized (M : Model) (cfg : EngineConfig) (actions : List Action) :
    ∀ r ∈ (run M cfg actions).newRequests ++ (run M cfg actions).sched.allRequests,
      r.Sized cfg.maxModelLen :=
  fun r member => ((run_invariant M cfg actions).lives r member).sized
    (fun r (submitted : Submitted M cfg actions r) => submitted.sized)

end Engine

namespace Plan

variable {plan next : Plan M}

/-- A request that is admitted has a token left behind its prefix hits. -/
theorem Step.due (step : Step plan next) (due : ∀ r ∈ plan.sched.running, r.Due) :
    ∀ r ∈ next.sched.running, r.Due := by
  intro r member
  cases step with
  | @extend req kv pool nNew nSpec inside =>
    rcases Scheduler.mem_store.mp member with ⟨old, _⟩ | ⟨new, _⟩
    · exact due r old
    · rw [new]
      exact due req inside
  | @preempt victim last =>
    have running : (plan.preempt victim).sched.running = _ := plan.sched.preempt_running victim
    rw [running] at member
    exact due r (Keyed.mem_remove.mp member).1
  | rehash queue => exact due r member
  | @start old first rest hits kv pool nComputed nNew queue seats preempted found computed amount
      positive =>
    rcases mem_append.mp member with old | new
    · exact due r old
    rw [mem_singleton.mp new]
    have most := wanted_le plan.sched.cfg plan.budget first nComputed
    change nComputed < first.nTokens
    omega

theorem Step.seats (step : Step plan next)
    (few : plan.sched.running.length ≤ plan.sched.cfg.maxNumSeqs) :
    next.sched.running.length ≤ next.sched.cfg.maxNumSeqs := by
  rw [step.cfg]
  cases step with
  | @extend req kv pool nNew nSpec inside =>
    change (Keyed.replace _ _ plan.sched.running).length ≤ _
    rw [Keyed.replace, length_map]
    exact few
  | @preempt victim last =>
    have running : (plan.preempt victim).sched.running = _ := plan.sched.preempt_running victim
    rw [running]
    exact Nat.le_trans (length_filter_le _ _) few
  | rehash queue => exact few
  | start queue seats =>
    change (plan.sched.running ++ [_]).length ≤ _
    rw [length_append]
    exact seats

end Plan

namespace Scheduler

theorem schedule_due (unique : s.order.Nodup) (due : ∀ r ∈ s.running, r.Due) :
    ∀ r ∈ s.schedule.2.running, r.Due := by
  obtain ⟨plan, shape, steps⟩ := s.schedule_steps (running_unique unique)
  rw [shape]
  clear shape
  induction steps with
  | refl => exact due
  | tail _ step ih => exact step.due ih

theorem schedule_seats (unique : s.order.Nodup) (few : s.running.length ≤ s.cfg.maxNumSeqs) :
    s.schedule.2.running.length ≤ s.cfg.maxNumSeqs := by
  obtain ⟨plan, shape, steps⟩ := s.schedule_steps (running_unique unique)
  have kept : plan.sched.running.length ≤ plan.sched.cfg.maxNumSeqs ∧
      plan.sched.cfg = s.cfg := by
    clear shape
    induction steps with
    | refl => exact ⟨few, rfl⟩
    | tail _ step ih => exact ⟨step.seats ih.1, step.cfg.trans ih.2⟩
  rw [shape]
  exact kept.2 ▸ kept.1

end Scheduler

namespace Engine

variable {service : Service M} {known : Registration → Prop} {e : Engine M}

/-- Ending requests, whichever they are, adds none to `running_`. -/
theorem finish_subset (e : Engine M) (r : Request M) (status : RequestStatus) (why : FinishReason)
    (error : String) : (e.finish r status why error).sched.running ⊆ e.sched.running := by
  unfold finish
  split
  · exact fun _ member => member
  unfold Scheduler.finishRequest
  dsimp only
  split
  · exact fun _ member => (Keyed.mem_remove.mp member).1
  · exact fun _ member => member

theorem foldl_subset {β : Type} {turn : Engine M → β → Engine M}
    (one : ∀ e item, (turn e item).sched.running ⊆ e.sched.running) (items : List β)
    (e : Engine M) : (items.foldl turn e).sched.running ⊆ e.sched.running :=
  foldlRecOn (motive := fun next => next.sched.running ⊆ e.sched.running) items turn
    (Subset.refl _) fun next sub item _ => Subset.trans (one next item) sub

theorem failUnschedulable_subset (e : Engine M) :
    e.failUnschedulable.sched.running ⊆ e.sched.running := by
  refine foldl_subset ?_ _ e
  intro e r
  split
  · exact finish_subset e r _ _ _
  · exact fun _ member => member

theorem ingest_subset (e : Engine M) : e.ingest.sched.running ⊆ e.sched.running := by
  have taken : e.taken.sched.running = e.sched.running := by rw [taken_fields]
  rw [← taken]
  refine foldl_subset ?_ e.aborts e.taken
  intro e id
  unfold finishAbort
  split
  · exact fun _ member => member
  · exact finish_subset e _ _ _ _

theorem Invariant.step_due (inv : e.Invariant service known) (sound : service.Sound known)
    (knows : e.Knows known) (steady : input.failure = none → e.ingest.SteadyStep service)
    (due : ∀ r ∈ e.sched.running, r.Due) (alive : (Engine.handle (e.step input)).crashed = false) :
    ∀ r ∈ (Engine.handle (e.step input)).sched.running, r.Due := by
  have start := inv.ingest.1
  have heard := inv.ingest_knows knows
  have ingested : ∀ r ∈ e.ingest.sched.running, r.Due :=
    fun r member => due r (e.ingest_subset member)
  have planned := Scheduler.schedule_due start.sched.unique ingested
  obtain ⟨scheduled, known, turns, order, ready⟩ := start.schedule sound heard
  have stepped := (start.stepBody sound heard steady).1
  have body : ∀ value, (e.ingest.stepBody input).2 = .ok value →
      ∀ r ∈ (e.ingest.stepBody input).1.sched.running, r.Due := by
    intro value success
    rcases e.ingest.stepBody_cases input with ⟨_, ⟨shape, _⟩ | ⟨_, shape | ⟨shape, _⟩⟩⟩ | shape
    · rw [shape]
      exact ingested
    · rw [shape]
      exact planned
    · rw [shape]
      exact fun r member => planned r (failUnschedulable_subset _ member)
    rw [shape, computed, ← order] at success ⊢
    obtain ⟨_, returned, _⟩ := Outcome.bind_eq_ok success
    exact (scheduled.compute sound known ready
      (fun success => (steady success).turns order ready)).2.1 planned returned
  unfold Engine.step at alive ⊢
  generalize e.ingest.stepBody input = result at stepped body alive ⊢
  obtain ⟨next, outcome⟩ := result
  cases outcome with
  | ok value => exact body value rfl
  | aborted => cases alive
  | threw message =>
    have empty := stepped.finishAll_empty .finishedError (.inr rfl) message
    intro r member
    have inside : r ∈ (next.finishAll .finishedError .error message).sched.allRequests :=
      mem_append_left _ member
    rw [empty] at inside
    cases inside

/-- A crashed engine never comes back. -/
theorem run_alive {cfg : EngineConfig} {actions : List Action} {action : Action}
    (alive : (run M cfg (actions ++ [action])).crashed = false) :
    (run M cfg actions).crashed = false := by
  rw [run_concat] at alive
  cases crashed : (run M cfg actions).crashed with
  | false => rfl
  | true =>
    unfold act at alive
    rw [crashed, if_pos rfl, crashed] at alive
    cases alive

theorem run_due (M : Model) (cfg : EngineConfig) (actions : List Action)
    (alive : (run M cfg actions).crashed = false) :
    ∀ r ∈ (run M cfg actions).sched.running, r.Due := by
  induction actions using List.reverseRecOn with
  | nil => simp [run, new]
  | append_singleton actions action ih =>
    have due := ih (run_alive alive)
    rw [run_concat] at alive ⊢
    rcases (run M cfg actions).act_cases action with ⟨input, _, _, stepped⟩ | ⟨_, idle⟩
    · rw [stepped] at alive ⊢
      exact (run_invariant M cfg actions).step_due runService_sound (run_knows M cfg actions)
        (fun _ _ _ _ _ _ _ => trivial) due alive
    · rw [idle.sched]
      exact due

theorem seats_frame (seats : Nat) : Frame (fun e next : Engine M =>
    e.sched.running.length ≤ seats → next.sched.running.length ≤ seats) := by
  refine .of (fun _ few => few) (fun first second few => second (first few)) (fun _ _ few => few)
    ?_ ?_
  · intro e r few
    change (Keyed.replace _ _ e.sched.running).length ≤ seats
    rw [Keyed.replace, length_map]
    exact few
  · intro e r status why error few
    unfold finish
    split
    · exact few
    unfold Scheduler.finishRequest
    dsimp only
    split
    · exact Nat.le_trans (length_filter_le _ _) few
    · exact few

theorem run_seats (M : Model) (cfg : EngineConfig) (actions : List Action) :
    (run M cfg actions).sched.running.length ≤ cfg.sched.maxNumSeqs := by
  induction actions using List.reverseRecOn with
  | nil => exact Nat.zero_le _
  | append_singleton actions action ih =>
    rw [run_concat]
    rcases (run M cfg actions).act_cases action with ⟨input, _, _, stepped⟩ | ⟨_, idle⟩
    · rw [stepped]
      have inv := run_invariant M cfg actions
      have config := run_ingest_schedCfg M cfg actions
      have frame := seats_frame (M := M) cfg.sched.maxNumSeqs
      refine frame.handle (fun _ few => few) _ ?_
      refine frame.stepBody input ?_ ?_ ?_
      · intro few
        rw [← config] at few ⊢
        exact Scheduler.schedule_seats inv.ingest.1.sched.unique few
      · intro cells entries few
        have same := congrArg List.length (Scheduler.updateAfterStep_frame entries
          (run M cfg actions).ingest.sched.schedule.2).2.2
        rw [length_map, length_map] at same
        rw [same]
        exact few
      · apply frame.aborts
        rw [taken_fields]
        exact ih
    · rw [idle.sched]
      exact ih

end Engine

/-- The requests of the scheduler between two steps. -/
structure Scheduler.Lifecycle (s : Scheduler M) (cfg : EngineConfig) : Prop where
  runningOnce : (s.running.map Request.id).Nodup
  waitingOnce : (s.waiting.map Request.id).Nodup
  disjoint : (s.running.map Request.id).Disjoint (s.waiting.map Request.id)
  waiting : ∀ r ∈ s.waiting, r.kv.blockIds = [] ∧ r.kv.numCachedBlocks = 0 ∧ r.numComputedTokens = 0
  running : ∀ r ∈ s.running, r.status = .running ∧ r.numComputedTokens < r.nTokens ∧
    (r.numComputedTokens + cfg.blockSize - 1) / cfg.blockSize ≤ r.kv.blockIds.length
  hashes : ∀ r ∈ s.allRequests,
    r.blockHashes <+: chainHashes cfg.blockSize r.tokens r.opts.cacheSalt (r.nTokens / cfg.blockSize)
  length : ∀ r ∈ s.allRequests, r.nTokens ≤ cfg.maxModelLen
  seats : s.running.length ≤ cfg.sched.maxNumSeqs

theorem ceil_le {count size blocks : Nat} (positive : 0 < size) :
    (count + size - 1) / size ≤ blocks ↔ count ≤ blocks * size := by
  rw [← Nat.lt_succ_iff, Nat.div_lt_iff_lt_mul positive, Nat.succ_mul]
  omega

theorem HashesOf.leading {blockSize : Nat} (positive : 0 < blockSize) {salt : UInt64}
    {tokens : List Token} {hashes : List UInt64} (same : HashesOf blockSize salt tokens hashes) :
    hashes <+: chainHashes blockSize tokens salt (tokens.length / blockSize) := by
  obtain ⟨count, inside, shape⟩ := same
  have few : count ≤ tokens.length / blockSize := (Nat.le_div_iff_mul_le positive).mpr inside
  obtain ⟨more, total⟩ := Nat.le.dest few
  rw [shape, ← total, chainHashes, chainHashes, range_add, map_append]
  exact prefix_append _ _

namespace Engine

/-- The lifecycle invariant, in every state between steps that the process lives to see. -/
theorem run_lifecycle (M : Model) (cfg : EngineConfig) (actions : List Action)
    (alive : (run M cfg actions).crashed = false) : (run M cfg actions).sched.Lifecycle cfg := by
  have inv := run_invariant M cfg actions
  have size : (run M cfg actions).sched.pool.blockSize = cfg.blockSize := inv.blockSize
  have unique : (run M cfg actions).sched.order.Nodup := inv.sched.unique
  rw [Scheduler.order_eq, nodup_append] at unique
  have seat : ∀ r ∈ (run M cfg actions).sched.allRequests,
      r.seat.Valid (run M cfg actions).sched.pool (run M cfg actions).cells :=
    fun r member => inv.sched.layout.valid r.seat (mem_map.mpr ⟨r, member, rfl⟩)
  refine ⟨unique.1, unique.2.1, ?_, ?_, ?_, ?_, ?_, run_seats M cfg actions⟩
  · intro id left right
    exact unique.2.2 id left id right rfl
  · intro r member
    have queued := inv.sched.waiting r member
    rw [queued.kv]
    exact ⟨rfl, rfl, queued.computed⟩
  · intro r member
    refine ⟨inv.sched.running r member, run_due M cfg actions alive r member, ?_⟩
    have room := (seat r (mem_append_left _ member)).room
    rw [size] at room
    exact (ceil_le cfg.blockSize_pos).mpr room
  · intro r member
    have hashes := (seat r member).hashes
    rw [size] at hashes
    exact hashes.leading cfg.blockSize_pos
  · intro r member
    exact (run_sized M cfg actions r (mem_append_right _ member)).most

/-- The second request has been preempted and a third one is waiting. -/
def crowdedRun : List Action := pressedRun ++ [.submit [9] {} {}, .step {}]

theorem run_lifecycle_crowded :
    (run Model.counting (pressedConfig .fcfs) crowdedRun).sched.waiting.map Request.id = [2, 3] ∧
      (run Model.counting (pressedConfig .fcfs) crowdedRun).sched.Lifecycle (pressedConfig .fcfs) :=
  ⟨by decide +kernel,
    run_lifecycle Model.counting (pressedConfig .fcfs) crowdedRun (by decide +kernel)⟩

end Engine

end Iian
