import Iian.OutputQueue
import Iian.Server

/- Every queue gets one terminal chunk, unless its request is still in `new_requests_` when
the engine shuts down. -/
namespace Iian

open List

variable {M : Model}

variable {id : Nat}

namespace Server

variable {cfg : EngineConfig} {s next : Server M} {thread : Thread}

/-- The engine's side of a server: nothing is asked of the requests or of the batches. -/
def service (M : Model) (cfg : EngineConfig) : Service M where
  cfg := cfg
  fresh := Request.New
  exact := False
  steady := fun _ _ => True

theorem service_sound (known : Registration → Prop) : (service M cfg).Sound known :=
  ⟨fun _ new => new, False.elim, fun _ _ _ _ _ => trivial⟩

/-- The engine holds no request, and its thread is in no step. -/
def Quiet (s : Server M) : Prop :=
  s.thread ≠ .stepping ∧ s.thread ≠ .ingested ∧ s.engine.sched.allRequests = []

/-- How far the thread can be, by the state of `stop`. An engine that was not running when
it was stopped has never stepped since it was last empty. -/
def Phase (s : Server M) : Prop :=
  match s.stop with
  | .idle => s.thread ≠ .exited ∧
      (s.running = false → s.quit = false ∧ s.thread = .parked ∧ s.Quiet)
  | .called wasRunning | .signalled wasRunning =>
    s.running = false ∧ (wasRunning = false → s.Quiet)
  | .returned => s.running = false ∧ s.thread = .exited ∧ s.Quiet

structure Valid (cfg : EngineConfig) (s : Server M) : Prop where
  engine : s.engine.Invariant (service M cfg) (fun _ => True)
  phase : s.Phase
  due : ∀ id ∈ s.due, id ∈ s.engine.issued
  left : s.thread = .exited → ∀ id ∈ s.due, id ∈ s.left ↔ id ∈ s.queued

theorem new_valid (M : Model) (cfg : EngineConfig) : (new M cfg).Valid cfg :=
  ⟨Engine.new_invariant (service M cfg) _, ⟨nofun, fun _ => ⟨rfl, rfl, nofun, nofun, rfl⟩⟩, nofun,
    nofun⟩

theorem Valid.start (valid : s.Valid cfg) : s.start.Valid cfg := by
  have phase := valid.phase
  unfold Server.start
  split
  · exact valid
  · exact valid
  · rename_i idle
    rw [Phase, idle] at phase
    split
    · exact valid
    refine ⟨valid.engine, ⟨?_, nofun⟩, valid.due, ?_⟩
    · dsimp only
      rw [if_neg phase.1]
      exact phase.1
    · dsimp only
      rw [if_neg phase.1]
      exact fun gone => (phase.1 gone).elim
  · rename_i returned
    rw [Phase, returned] at phase
    split
    · exact valid
    refine ⟨valid.engine, ⟨?_, nofun⟩, valid.due, ?_⟩
    · dsimp only
      rw [if_pos phase.2.1]
      decide
    · dsimp only
      rw [if_pos phase.2.1]
      exact nofun

theorem Valid.callStop (valid : s.Valid cfg) : s.callStop.Valid cfg := by
  have phase := valid.phase
  have left : s.thread = .exited → ∀ id ∈ s.engine.issued,
      id ∈ (if s.thread = .exited then s.queued else s.left) ↔ id ∈ s.queued := by
    intro gone id _
    rw [if_pos gone]
  unfold Server.callStop
  split
  · exact valid
  · exact valid
  · rename_i idle
    rw [Phase, idle] at phase
    exact ⟨valid.engine, ⟨rfl, fun stopped => (phase.2 stopped).2.2⟩, fun _ member => member, left⟩
  · rename_i returned
    rw [Phase, returned] at phase
    exact ⟨valid.engine, ⟨rfl, fun _ => phase.2.2⟩, fun _ member => member, left⟩

theorem Valid.signal (valid : s.Valid cfg) : s.signal.Valid cfg := by
  have phase := valid.phase
  unfold Server.signal
  split
  · rename_i wasRunning called
    rw [Phase, called] at phase
    exact ⟨valid.engine, phase, valid.due, valid.left⟩
  · exact valid

/-- What the join leaves: the engine is empty whether or not it was running. -/
theorem Valid.join (valid : s.Valid cfg) : s.join.Valid cfg := by
  have phase := valid.phase
  unfold Server.join
  split
  · rename_i wasRunning signalled
    rw [Phase, signalled] at phase
    split
    · rename_i gone
      cases wasRunning with
      | false => exact ⟨valid.engine, ⟨phase.1, gone, phase.2 rfl⟩, valid.due, valid.left⟩
      | true =>
        have ambient := Engine.ambient_frame.finishAll s.engine .finishedAborted .abort
          "engine shutting down"
        have issued : (s.engine.finishAll .finishedAborted .abort
            "engine shutting down").issued = s.engine.issued :=
          congrArg Engine.Ambient.issued ambient
        have queued : (s.engine.finishAll .finishedAborted .abort
            "engine shutting down").newRequests = s.engine.newRequests :=
          congrArg Engine.Ambient.newRequests ambient
        refine ⟨(valid.engine.finishAll _ (.inl rfl) _).1, ⟨phase.1, gone, ?_, ?_, ?_⟩,
          fun id member => issued.symm ▸ valid.due id member, ?_⟩
        · exact fun step => by rw [gone] at step; cases step
        · exact fun step => by rw [gone] at step; cases step
        · exact valid.engine.finishAll_empty _ (.inl rfl) _
        intro _ id member
        refine (valid.left gone id member).trans ?_
        change _ ↔ id ∈ (s.engine.finishAll .finishedAborted .abort
          "engine shutting down").newRequests.map Request.id
        rw [queued]
        rfl
    · exact valid
  · exact valid

theorem Phase.idle_of_running (phase : s.Phase) (running : s.running = true) : s.stop = .idle := by
  unfold Phase at phase
  split at phase
  · assumption
  all_goals
    rw [running] at phase
    cases phase.1

/-- The thread moves outside of a step. -/
theorem Phase.move (phase : s.Phase) (stepping : thread ≠ .stepping) (ingested : thread ≠ .ingested)
    (idle : s.stop = .idle → thread ≠ .exited ∧ s.running = true)
    (returned : s.stop = .returned → thread = .exited) :
    ({ s with thread := thread } : Server M).Phase := by
  have quiet : s.Quiet → ({ s with thread := thread } : Server M).Quiet :=
    fun quiet => ⟨stepping, ingested, quiet.2.2⟩
  unfold Phase at phase ⊢
  dsimp only
  split
  · rename_i here
    refine ⟨(idle here).1, fun stopped => ?_⟩
    rw [(idle here).2] at stopped
    cases stopped
  · rename_i called
    rw [called] at phase
    exact ⟨phase.1, fun unused => quiet (phase.2 unused)⟩
  · rename_i signalled
    rw [signalled] at phase
    exact ⟨phase.1, fun unused => quiet (phase.2 unused)⟩
  · rename_i here
    rw [here] at phase
    exact ⟨phase.1, returned here, quiet phase.2.2⟩

theorem Valid.wake (valid : s.Valid cfg) : s.wake.Valid cfg := by
  have phase := valid.phase
  unfold Server.wake
  split
  · rename_i enabled
    obtain ⟨parked, woken⟩ := enabled
    refine ⟨valid.engine, phase.move nofun nofun ?_ ?_, valid.due, nofun⟩
    · intro idle
      rw [Phase, idle] at phase
      refine ⟨nofun, Decidable.byContradiction fun stopped => ?_⟩
      rw [Bool.not_eq_true] at stopped
      rw [stopped, (phase.2 stopped).1] at woken
      cases woken
    · intro returned
      rw [Phase, returned] at phase
      rw [phase.2.1] at parked
      cases parked
  · exact valid

theorem Valid.test (valid : s.Valid cfg) : s.test.Valid cfg := by
  have phase := valid.phase
  unfold Server.test
  split
  · rename_i looping
    split
    · rename_i running
      refine ⟨valid.engine, ?_, valid.due, nofun⟩
      rw [Phase, phase.idle_of_running running]
      refine ⟨nofun, fun stopped => ?_⟩
      rw [running] at stopped
      cases stopped
    · rename_i stopped
      rw [Bool.not_eq_true] at stopped
      refine ⟨valid.engine, phase.move nofun nofun ?_ (fun _ => rfl), valid.due,
        fun _ id _ => Iff.rfl⟩
      intro idle
      rw [Phase, idle] at phase
      rw [(phase.2 stopped).2.1] at looping
      cases looping
  · exact valid

/-- While the thread is in a step, no `stop` counts on a quiet engine. -/
theorem Phase.step (phase : s.Phase) (inside : s.thread = .stepping ∨ s.thread = .ingested)
    (engine : Engine M) (going : thread ≠ .exited) :
    ({ s with engine := engine, thread := thread } : Server M).Phase := by
  have busy : ¬ s.Quiet := by
    rintro ⟨first, second, _⟩
    exact inside.elim first second
  unfold Phase at phase ⊢
  dsimp only
  split
  · rename_i idle
    rw [idle] at phase
    exact ⟨going, fun stopped => (busy (phase.2 stopped).2.2).elim⟩
  · rename_i called
    rw [called] at phase
    exact ⟨phase.1, fun quiet => (busy (phase.2 quiet)).elim⟩
  · rename_i signalled
    rw [signalled] at phase
    exact ⟨phase.1, fun quiet => (busy (phase.2 quiet)).elim⟩
  · rename_i returned
    rw [returned] at phase
    exact (busy phase.2.2).elim

section

variable (valid : s.Valid cfg)

include valid

theorem Valid.ingest : s.ingest.Valid cfg := by
  unfold Server.ingest
  split
  · rename_i stepping
    have issued : s.engine.ingest.issued = s.engine.issued :=
      congrArg Engine.Ambient.issued s.engine.ingest_ambient
    exact ⟨valid.engine.ingest.1, valid.phase.step (.inl stepping) _ nofun,
      fun id member => issued.symm ▸ valid.due id member, nofun⟩
  · exact valid

theorem Valid.body (input : StepInput) : (s.body input).Valid cfg := by
  unfold Server.body
  split
  · rename_i ingested
    have issued : (Engine.handle (s.engine.stepBody input)).issued = s.engine.issued := by
      rw [show (Engine.handle (s.engine.stepBody input)).issued =
        (s.engine.stepBody input).1.ambient.issued from
          congrArg Engine.Ambient.issued (Engine.handle_ambient _)]
      rcases s.engine.stepBody_ambient input with same | written
      · rw [same]
        rfl
      · rw [written]
        rfl
    refine ⟨(valid.engine.stepBody (service_sound _) (fun _ _ _ _ => trivial) ?_).1.handle.1,
      valid.phase.step (.inr ingested) _ nofun,
      fun id member => issued.symm ▸ valid.due id member, nofun⟩
    exact fun _ _ _ _ _ _ _ => trivial
  · exact valid

/-- A client's call adds at most one request, under an id that was not in use. -/
theorem Valid.call {engine : Engine M} (inv : engine.Invariant (service M cfg) (fun _ => True))
    (sched : engine.sched = s.engine.sched) (grows : ∀ id ∈ s.engine.issued, id ∈ engine.issued)
    (queued : ∀ id ∈ s.engine.issued, id ∈ s.queued ↔ id ∈ engine.newRequests.map Request.id) :
    ({ s with engine := engine } : Server M).Valid cfg := by
  refine ⟨inv, ?_, fun id member => grows id (valid.due id member), ?_⟩
  · have phase := valid.phase
    unfold Phase Quiet at phase ⊢
    dsimp only
    rw [sched]
    exact phase
  · intro gone id member
    exact (valid.left gone id member).trans (queued id (valid.due id member))

/-- The id of a new request is not in use. -/
theorem Valid.enqueue {r : Request M} (same : r.id = s.engine.nextId) :
    ∀ id ∈ s.engine.issued, id ∈ s.queued ↔ id ∈ (s.engine.newRequests ++ [r]).map Request.id := by
  intro id member
  have older := valid.engine.bounded id member
  rw [map_append, mem_append, map_singleton, mem_singleton, same]
  refine ⟨.inl, ?_⟩
  rintro (old | new)
  · exact old
  · omega

theorem Valid.submit (prompt : List Token) (params : SamplingParams) (opts : RequestOptions) :
    ({ s with engine := (s.engine.submit prompt params opts).2 } : Server M).Valid cfg := by
  have inv : (s.engine.submit prompt params opts).2.Invariant (service M cfg) (fun _ => True) :=
    valid.engine.submit (fun grammar _ _ => Engine.generationRequest_new _ _ _ _ _ grammar)
  rcases s.engine.submit_cases prompt params opts with
    ⟨message, shape⟩ | ⟨message, shape⟩ | ⟨grammar, _, shape⟩
  · rw [shape]
    exact valid
  · rw [shape] at inv ⊢
    exact valid.call inv rfl (fun _ member => member) (fun _ _ => Iff.rfl)
  · rw [shape] at inv ⊢
    exact valid.call inv rfl (fun _ member => mem_append_left _ member) (valid.enqueue rfl)

theorem Valid.submitEmbedding (prompt : List Token) (pooling : Pooling) (normalize : Bool)
    (opts : RequestOptions) :
    ({ s with engine := (s.engine.submitEmbedding prompt pooling normalize opts).2 } :
      Server M).Valid cfg := by
  have inv : (s.engine.submitEmbedding prompt pooling normalize opts).2.Invariant (service M cfg)
      (fun _ => True) :=
    valid.engine.submitEmbedding (fun _ => Engine.embeddingRequest_new _ _ _ _ _)
  rcases s.engine.submitEmbedding_cases prompt pooling normalize opts with
    ⟨message, shape⟩ | shape
  · rw [shape]
    exact valid
  · rw [shape] at inv ⊢
    exact valid.call inv rfl (fun _ member => mem_append_left _ member) (valid.enqueue rfl)

theorem Valid.turn (event : Event) : (s.turn event).Valid cfg := by
  unfold Server.turn
  split
  · exact valid
  cases event with
  | start => exact valid.start
  | submit prompt params opts => exact valid.submit prompt params opts
  | submitEmbedding prompt pooling normalize opts =>
    exact valid.submitEmbedding prompt pooling normalize opts
  | abort id =>
    have inv := valid.engine
    exact valid.call ⟨inv.cfg, inv.sched, inv.blockSize, inv.exact, inv.unique, inv.bounded,
      inv.held, inv.new, inv.lives, inv.ended⟩ rfl (fun _ member => member) (fun _ _ => Iff.rfl)
  | wake => exact valid.wake
  | test => exact valid.test
  | ingest => exact valid.ingest
  | body input => exact valid.body input
  | callStop => exact valid.callStop
  | signal => exact valid.signal
  | join => exact valid.join

end

theorem serve_concat (M : Model) (cfg : EngineConfig) (events : List Event) (event : Event) :
    serve M cfg (events ++ [event]) = (serve M cfg events).turn event := by
  rw [serve, foldl_append]
  rfl

theorem serve_valid (M : Model) (cfg : EngineConfig) (events : List Event) :
    (serve M cfg events).Valid cfg := by
  induction events using List.reverseRecOn with
  | nil => exact new_valid M cfg
  | append_singleton events event ih =>
    rw [serve_concat]
    exact ih.turn event

/-- The queue of a request, once `stop` has returned. -/
theorem Valid.terminated_iff (valid : s.Valid cfg) (returned : s.stop = .returned)
    (due : id ∈ s.due) : Terminated (s.engine.queue id) ↔ id ∉ s.left := by
  have phase := valid.phase
  rw [Phase, returned] at phase
  obtain ⟨_, gone, _, _, empty⟩ := phase
  have inv := valid.engine
  obtain ⟨r, member, same⟩ := mem_map.mp (inv.held.mem_iff.mpr (valid.due id due))
  rw [← same, inv.queue_eq member, same, valid.left gone id due]
  rw [empty, append_nil] at member
  have unique := inv.ids_unique
  rw [empty, append_nil, map_append] at unique
  rcases mem_append.mp member with fresh | done
  · have blank : r.out = [] := by rw [inv.new r fresh]
    have here : id ∈ s.queued := mem_map.mpr ⟨r, fresh, same⟩
    rw [blank]
    exact ⟨fun closed => (not_terminated_nil closed).elim, fun absent => (absent here).elim⟩
  · have closed := (inv.ended r done).terminated (fun _ new => new)
    refine ⟨fun _ queued => ?_, fun _ => closed⟩
    exact disjoint_of_nodup_append unique queued (mem_map.mpr ⟨r, done, same⟩)

/-- An abort that the engine has not read yet, or has followed. -/
structure Heeded (s : Server M) (id : Nat) : Prop where
  issued : id ∈ s.engine.issued
  kept : id ∈ s.engine.aborts ∨ id ∈ s.engine.done.map Request.id

/-- Whatever leaves the client side of the engine alone keeps its aborts. -/
theorem Heeded.frame (heeded : s.Heeded id) (issued : next.engine.issued = s.engine.issued)
    (aborts : next.engine.aborts = s.engine.aborts) (done : s.engine.done <+: next.engine.done) :
    next.Heeded id := by
  refine ⟨issued.symm ▸ heeded.issued, ?_⟩
  rcases heeded.kept with waiting | ended
  · exact .inl (aborts.symm ▸ waiting)
  · exact .inr ((done.map Request.id).subset ended)

theorem Heeded.of_ambient (heeded : s.Heeded id) (ambient : next.engine.ambient = s.engine.ambient)
    (done : s.engine.done <+: next.engine.done) :
    next.Heeded id :=
  heeded.frame (congrArg Engine.Ambient.issued ambient) (congrArg Engine.Ambient.aborts ambient) done

/-- The ingest follows the aborts. -/
theorem Heeded.ingest (valid : s.Valid cfg) (heeded : s.Heeded id) :
    id ∈ s.engine.ingest.done.map Request.id := by
  rcases heeded.kept with waiting | ended
  · exact valid.engine.ingest_done heeded.issued waiting
  · exact ((Engine.done_frame.foldl Engine.done_frame.finishAbort _ _).map Request.id).subset ended

theorem start_engine (s : Server M) : s.start.engine = s.engine := by
  unfold start
  split
  · rfl
  · rfl
  · split <;> rfl
  · split <;> rfl

theorem callStop_engine (s : Server M) : s.callStop.engine = s.engine := by
  unfold callStop
  split <;> rfl

theorem signal_engine (s : Server M) : s.signal.engine = s.engine := by
  unfold signal
  split <;> rfl

theorem wake_engine (s : Server M) : s.wake.engine = s.engine := by
  unfold wake
  split <;> rfl

theorem test_engine (s : Server M) : s.test.engine = s.engine := by
  unfold test
  split
  · split <;> rfl
  · rfl

theorem Heeded.join (heeded : s.Heeded id) : s.join.Heeded id := by
  unfold Server.join
  split
  · rename_i wasRunning _
    split
    · cases wasRunning with
      | false => exact ⟨heeded.issued, heeded.kept⟩
      | true =>
        exact heeded.of_ambient (Engine.ambient_frame.finishAll _ _ _ _)
          (Engine.done_frame.finishAll s.engine _ _ _)
    · exact heeded
  · exact heeded

theorem Heeded.body (heeded : s.Heeded id) (input : StepInput) : (s.body input).Heeded id := by
  unfold Server.body
  split
  · have ambient := Engine.handle_ambient (s.engine.stepBody input)
    have done := (s.engine.stepBody_done input).trans (Engine.handle_done _)
    rcases s.engine.stepBody_ambient input with same | written
    · exact heeded.of_ambient (ambient.trans same) done
    · rw [written] at ambient
      exact heeded.frame (congrArg Engine.Ambient.issued ambient)
        (congrArg Engine.Ambient.aborts ambient) done
  · exact heeded

theorem Heeded.turn {id : Nat} (valid : s.Valid cfg) (heeded : s.Heeded id) (event : Event) :
    (s.turn event).Heeded id := by
  have same : ∀ next : Server M, next.engine = s.engine → next.Heeded id := by
    intro next equal
    exact ⟨equal.symm ▸ heeded.issued, equal.symm ▸ heeded.kept⟩
  unfold Server.turn
  split
  · exact heeded
  cases event with
  | start => exact same _ s.start_engine
  | submit prompt params opts =>
    dsimp only
    rcases s.engine.submit_cases prompt params opts with
      ⟨message, shape⟩ | ⟨message, shape⟩ | ⟨grammar, _, shape⟩
    · rw [shape]
      exact heeded
    · rw [shape]
      exact ⟨heeded.issued, heeded.kept⟩
    · rw [shape]
      exact ⟨mem_append_left _ heeded.issued, heeded.kept⟩
  | submitEmbedding prompt pooling normalize opts =>
    dsimp only
    rcases s.engine.submitEmbedding_cases prompt pooling normalize opts with
      ⟨message, shape⟩ | shape
    · rw [shape]
      exact heeded
    · rw [shape]
      exact ⟨mem_append_left _ heeded.issued, heeded.kept⟩
  | abort other => exact ⟨heeded.issued, heeded.kept.imp_left (mem_append_left _)⟩
  | wake => exact same _ s.wake_engine
  | test => exact same _ s.test_engine
  | ingest =>
    dsimp only
    unfold Server.ingest
    split
    · have issued : s.engine.ingest.issued = s.engine.issued :=
        congrArg Engine.Ambient.issued s.engine.ingest_ambient
      exact ⟨issued.symm ▸ heeded.issued, .inr (heeded.ingest valid)⟩
    · exact heeded
  | body input => exact heeded.body input
  | callStop => exact same _ s.callStop_engine
  | signal => exact same _ s.signal_engine
  | join => exact heeded.join

/-- An abort of a request whose submission has returned is followed at the next ingest. -/
theorem serve_abort {before between : List Event} (issued : id ∈ (serve M cfg before).engine.issued)
    (alive : (serve M cfg (before ++ [.abort id] ++ between)).engine.crashed = false) :
    (serve M cfg (before ++ [.abort id] ++ between)).Heeded id := by
  induction between using List.reverseRecOn with
  | nil =>
    rw [append_nil, serve_concat] at alive ⊢
    unfold turn at alive ⊢
    split
    · rename_i crashed
      rw [if_pos crashed, crashed] at alive
      cases alive
    · exact ⟨issued, .inl (mem_append_right _ mem_cons_self)⟩
  | append_singleton between event ih =>
    rw [← append_assoc, serve_concat] at alive ⊢
    refine (ih ?_).turn (serve_valid M cfg _) event
    refine Decidable.byContradiction fun crashed => ?_
    rw [Bool.not_eq_false] at crashed
    unfold turn at alive
    rw [if_pos crashed, crashed] at alive
    cases alive

/-- Once `stop` has returned, the queue of a request that was submitted before it was called
has exactly one terminal chunk, at its end, if and only if the request was not left behind in
`new_requests_` by the engine thread. At all times every submitted request is in exactly one
place, and an abort of a submitted request ends it in the next ingest. -/
theorem serve_terminated (M : Model) (cfg : EngineConfig) :
    (∀ events, (serve M cfg events).stop = .returned → ∀ id ∈ (serve M cfg events).due,
      (Terminated ((serve M cfg events).engine.queue id) ↔ id ∉ (serve M cfg events).left)) ∧
    (∀ events, (serve M cfg events).engine.issued.Nodup ∧
      (((serve M cfg events).engine.newRequests ++ (serve M cfg events).engine.sched.allRequests ++
        (serve M cfg events).engine.done).map Request.id).Perm (serve M cfg events).engine.issued) ∧
    ∀ before between id, id ∈ (serve M cfg before).engine.issued →
      (serve M cfg (before ++ [.abort id] ++ between)).engine.crashed = false →
      (serve M cfg (before ++ [.abort id] ++ between)).thread = .stepping →
      Terminated ((serve M cfg (before ++ [.abort id] ++ between ++ [.ingest])).engine.queue id) := by
  refine ⟨?_, ?_, ?_⟩
  · intro events returned id due
    exact (serve_valid M cfg events).terminated_iff returned due
  · intro events
    have inv := (serve_valid M cfg events).engine
    exact ⟨inv.unique, inv.held⟩
  · intro before between id issued alive stepping
    have valid := serve_valid M cfg (before ++ [.abort id] ++ between)
    have ended := (serve_abort issued alive).ingest valid
    have next : (serve M cfg (before ++ [.abort id] ++ between ++ [.ingest])).engine =
        (serve M cfg (before ++ [.abort id] ++ between)).engine.ingest := by
      rw [serve_concat, turn, alive, if_neg (by decide)]
      unfold Server.ingest
      rw [if_pos stepping]
    rw [next]
    exact valid.engine.ingest.1.queue_terminated (fun _ new => new) ended

def shutdownConfig : EngineConfig where
  maxModelLen := 64
  blockSize := 2
  numBlocks := 32
  blockSize_pos := Nat.two_pos

/-- The events of `stop`, with the engine thread at the test of its loop. -/
def shutdown : List Event := [.callStop, .signal, .test, .join]

/-- A failing step ends the first request, an abort the second, and the shutdown the third. -/
def servedRun : List Event :=
  [.start, .wake, .submit [1, 2] {} {}, .test, .ingest, .body { failure := some ("failed", 0) },
    .submit [3] {} {}, .submit [4, 5] {} {}, .abort 2, .test]

theorem serve_terminated_servedRun :
    Terminated ((serve Model.counting shutdownConfig (servedRun ++ [.ingest])).engine.queue 2) ∧
    ∀ id ∈ [1, 2, 3], Terminated ((serve Model.counting shutdownConfig
      (servedRun ++ [.ingest, .body { failure := none }] ++ shutdown)).engine.queue id) := by
  have served := serve_terminated Model.counting shutdownConfig
  refine ⟨?_, ?_⟩
  · exact served.2.2 (servedRun.take 8) [.test] 2 (by decide +kernel) (by decide +kernel)
      (by decide +kernel)
  intro id member
  refine (served.1 _ (by decide +kernel) id ?_).mpr ?_
  · revert id
    decide +kernel
  · revert id
    decide +kernel

/-- A request that is submitted while the engine thread is between two steps, right before
`stop` is called, is never answered. -/
theorem serve_unterminated :
    let s := serve Model.counting shutdownConfig ([.start, .wake, .submit [1] {} {}] ++ shutdown)
    s.stop = .returned ∧ 1 ∈ s.due ∧ s.engine.queue 1 = [] ∧ ¬ Terminated (s.engine.queue 1) := by
  have empty : (serve Model.counting shutdownConfig
      ([.start, .wake, .submit [1] {} {}] ++ shutdown)).engine.queue 1 = [] := rfl
  refine ⟨by decide +kernel, by decide +kernel, empty, ?_⟩
  rw [empty]
  exact not_terminated_nil

end Server

end Iian
