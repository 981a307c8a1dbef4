import Iian.EngineCompute
import Iian.EngineFrames
import Mathlib.Data.List.Infix

/- Whole runs of the engine. -/
namespace Iian

open List Lib

variable {M : Model}

/-- New requests only join the waiting queue. -/
theorem Scheduler.addRequests_fields (fresh : List (Request M)) (s : Scheduler M) :
    fresh.foldl addRequest s = { s with waiting := (fresh.foldl addRequest s).waiting } := by
  induction fresh generalizing s with
  | nil => rfl
  | cons r fresh ih =>
    have first : s.addRequest r = { s with waiting := (s.addRequest r).waiting } := by
      unfold addRequest
      cases s.cfg.policy <;> rfl
    rw [foldl_cons, ih, first]

namespace Engine

variable {service : Service M} {known : Registration → Prop} {e : Engine M} {why : FinishReason}

/-- Ending requests one after another, whichever of a list are chosen. -/
theorem Invariant.finishes {turn : Engine M → Request M → Engine M} (status : RequestStatus)
    (kind : why = .abort ∨ why = .error) (error : String)
    (turns : ∀ e r, turn e r = e ∨ turn e r = e.finish r status why error)
    (requests : List (Request M)) (unique : (requests.map Request.id).Nodup)
    (inv : e.Invariant service known) (live : ∀ r ∈ requests, r ∈ e.sched.allRequests) :
    (requests.foldl turn e).Invariant service known ∧
      Pooled service known e (requests.foldl turn e) := by
  induction requests generalizing e with
  | nil => exact ⟨inv, fun _ _ first => first⟩
  | cons r requests ih =>
    rw [map_cons, nodup_cons] at unique
    have member := live r mem_cons_self
    rw [foldl_cons]
    rcases turns e r with same | finished
    · rw [same]
      exact ih unique.2 inv (fun other inside => live other (mem_cons_of_mem _ inside))
    obtain ⟨next, _, split⟩ := inv.finish member rfl rfl rfl
      (fun last content => Service.Ended.cut (inv.living member) kind content)
    rw [finished]
    have released := inv.finish_pooled member rfl rfl status why error
    refine (ih unique.2 next ?_).imp_right released.trans
    intro other inside
    rcases mem_cons.mp (split.mem_iff.mp (live other (mem_cons_of_mem _ inside))) with
      same | rest
    · exact (unique.1 (mem_map.mpr ⟨other, inside, congrArg Request.id same⟩)).elim
    · exact rest

theorem Invariant.finishAll (inv : e.Invariant service known) (status : RequestStatus)
    (kind : why = .abort ∨ why = .error) (error : String) :
    (e.finishAll status why error).Invariant service known ∧
      Pooled service known e (e.finishAll status why error) :=
  Invariant.finishes status kind error (fun _ _ => .inr rfl) _ inv.sched.unique inv (fun _ member => member)

theorem Invariant.failUnschedulable (inv : e.Invariant service known) :
    e.failUnschedulable.Invariant service known ∧
      Pooled service known e e.failUnschedulable := by
  refine Invariant.finishes .finishedError (.inr rfl) "request does not fit in the KV cache" ?_ _ inv.sched.unique inv (fun _ member => member)
  intro e r
  split
  · exact .inr rfl
  · exact .inl rfl

theorem Invariant.finishAbort (inv : e.Invariant service known) (id : Nat) :
    (e.finishAbort id).Invariant service known ∧
      (∀ r ∈ (e.finishAbort id).sched.allRequests, r ∈ e.sched.allRequests) ∧
      Pooled service known e (e.finishAbort id) := by
  rw [Engine.finishAbort]
  split
  · exact ⟨inv, fun _ member => member, fun _ _ first => first⟩
  rename_i r found
  have member := mem_of_find?_eq_some found
  obtain ⟨next, _, split⟩ := inv.finish member rfl rfl rfl
    (fun last content => Service.Ended.cut (inv.living member) (.inl rfl) content)
  exact ⟨next, fun other inside => split.mem_iff.mpr (mem_cons_of_mem _ inside),
    inv.finish_pooled member rfl rfl _ _ _⟩

theorem Invariant.finishAborts (ids : List Nat) (inv : e.Invariant service known) :
    (ids.foldl Engine.finishAbort e).Invariant service known ∧
      (∀ r ∈ (ids.foldl Engine.finishAbort e).sched.allRequests, r ∈ e.sched.allRequests) ∧
      Pooled service known e (ids.foldl Engine.finishAbort e) := by
  induction ids generalizing e with
  | nil => exact ⟨inv, fun _ member => member, fun _ _ first => first⟩
  | cons id ids ih =>
    obtain ⟨next, first, pooled⟩ := inv.finishAbort id
    obtain ⟨last, more, later⟩ := ih next
    exact ⟨last, fun r member => first r (more r member), pooled.trans later⟩

variable {r : Request M} {prompt : List Token} {opts : RequestOptions}
    {actions before : List Action} {cfg : EngineConfig} {action : Action} {id : Nat}
    {params : SamplingParams} {pooling : Pooling} {normalize : Bool}

theorem Invariant.addRequest (inv : e.Invariant service known) {rest : List (Request M)}
    (all : e.newRequests = r :: rest) :
    ({ e with newRequests := rest, sched := e.sched.addRequest r } :
      Engine M).Invariant service known ∧
      (e.sched.addRequest r).allRequests.Perm (r :: e.sched.allRequests) := by
  have new := inv.new r (by rw [all]; exact mem_cons_self)
  obtain ⟨status, kv, computed, hashes, _, _⟩ := new.fields
  have unique := inv.ids_unique
  rw [all, append_assoc, cons_append, map_cons, nodup_cons] at unique
  have absent : r.id ∉ e.sched.allRequests.map Request.id := by
    intro inside
    apply unique.1
    rw [map_append, map_append]
    exact mem_append_right _ (mem_append_left _ inside)
  obtain ⟨valid, split, _, pool, _, exact⟩ := inv.sched.addRequest absent kv computed hashes
  have same : { r with status := RequestStatus.waiting } = r := by rw [← status]
  rw [same] at split
  have members : (rest ++ (e.sched.addRequest r).allRequests ++ e.done).Perm
      (e.newRequests ++ e.sched.allRequests ++ e.done) := by
    rw [all]
    exact ((split.append_left rest).trans perm_middle).append_right e.done
  refine ⟨⟨inv.cfg, valid, ?_, fun sound => exact (inv.exact sound), inv.unique, inv.bounded,
    (members.map Request.id).trans inv.held, ?_, ?_, inv.ended⟩, split⟩
  · rw [← inv.blockSize]
    exact congrArg BlockPool.blockSize pool
  · intro other inside
    exact inv.new other (by rw [all]; exact mem_cons_of_mem _ inside)
  intro other inside
  apply inv.lives other
  rcases mem_append.mp inside with fresh | live
  · exact mem_append_left _ (by rw [all]; exact mem_cons_of_mem _ fresh)
  · rcases mem_cons.mp (split.mem_iff.mp live) with here | old
    · exact mem_append_left _ (by rw [all, here]; exact mem_cons_self)
    · exact mem_append_right _ old

/-- New requests join the queue in order. -/
theorem Invariant.addRequests (fresh : List (Request M)) (inv : e.Invariant service known)
    (all : e.newRequests = fresh) :
    ({ e with newRequests := [], sched := fresh.foldl Scheduler.addRequest e.sched } :
      Engine M).Invariant service known ∧
      (fresh.foldl Scheduler.addRequest e.sched).allRequests.Perm
        (fresh ++ e.sched.allRequests) := by
  induction fresh generalizing e with
  | nil =>
    refine ⟨?_, .refl _⟩
    have empty : e = { e with newRequests := [] } := by rw [← all]
    rw [empty] at inv
    exact inv
  | cons r rest ih =>
    obtain ⟨next, first⟩ := inv.addRequest all
    obtain ⟨last, more⟩ := ih next rfl
    exact ⟨last, more.trans ((first.append_left rest).trans perm_middle)⟩

/-- Every block chain of a request the engine holds is known. -/
def Knows (e : Engine M) (known : Registration → Prop) : Prop :=
  ∀ r ∈ e.newRequests ++ e.sched.allRequests, ∀ entry,
    Registration.PartOf entry r.opts.cacheSalt r.tokens → known entry

/-- The new requests join the scheduler. -/
theorem Invariant.taken (inv : e.Invariant service known) :
    ({ e with
        newRequests := []
        aborts := []
        sched := e.newRequests.foldl Scheduler.addRequest e.sched } :
      Engine M).Invariant service known :=
  have added := (inv.addRequests _ rfl).1
  ⟨added.cfg, added.sched, added.blockSize, added.exact, added.unique, added.bounded, added.held,
    added.new, added.lives, added.ended⟩

theorem taken_fields (e : Engine M) :
    e.taken.sched = { e.sched with waiting := e.taken.sched.waiting } :=
  Scheduler.addRequests_fields _ _

theorem Invariant.ingest (inv : e.Invariant service known) :
    e.ingest.Invariant service known ∧
      (∀ r ∈ e.ingest.sched.allRequests, r ∈ e.newRequests ++ e.sched.allRequests) ∧
      Pooled service known e e.ingest := by
  obtain ⟨_, joined⟩ := inv.addRequests _ rfl
  obtain ⟨last, kept, pooled⟩ := inv.taken.finishAborts e.aborts
  refine ⟨last, fun r member => joined.mem_iff.mp (kept r member), fun holds rule first => ?_⟩
  exact pooled holds rule (by
    change holds e.taken.sched.pool
    rw [taken_fields]
    exact first)

theorem Invariant.ingest_knows (inv : e.Invariant service known) (knows : e.Knows known) :
    e.ingest.sched.Knows known :=
  fun r member => knows r (inv.ingest.2.1 r member)

/-- Every embedding request of the next batch may be pooled from where it is. -/
def SteadyStep (service : Service M) (e : Engine M) : Prop :=
  ∀ entry ∈ e.sched.schedule.1.scheduled, ∀ r ∈ e.sched.schedule.2.running, r.id = entry.req →
    r.isEmbedding = true → service.steady r r.numComputedTokens

theorem batchOrder_perm (cfg : EngineConfig) (scheduled : List ScheduledRequest) :
    (batchOrder cfg scheduled).Perm scheduled := by
  unfold batchOrder
  split
  · exact perm_insertionSort _ _
  · exact .refl _

/-- The engine after `schedule`, and the requests of its batch. -/
theorem Invariant.schedule (inv : e.Invariant service known) (sound : service.Sound known)
    (knows : e.sched.Knows known) :
    e.planned.Invariant service known ∧ e.sched.schedule.2.Knows known ∧
      ∃ turns, turns.map Prod.snd = batchOrder e.cfg e.sched.schedule.1.scheduled ∧
        Batch.Turns e.sched.schedule.2 turns := by
  obtain ⟨plan, shape, planned⟩ := inv.sched.schedule
  rw [Engine.planned, shape]
  refine ⟨?_, knows.congr planned.content, ?_⟩
  · refine inv.reschedule planned.valid.sched planned.valid.blockSize ?_ planned.content
    intro exact
    refine planned.exact ?_ knows (inv.exact exact)
    rw [inv.blockSize]
    exact sound.free exact
  · have order := batchOrder_perm e.cfg plan.out.scheduled
    refine Batch.turns_exist _ _ ((order.map _).nodup_iff.mpr planned.valid.unique) ?_
    intro entry member
    rw [planned.valid.blockSize]
    exact planned.valid.ready entry (order.mem_iff.mp member)

theorem SteadyStep.turns {turns : List (Batch.Turn M)} (steady : e.SteadyStep service)
    (order : turns.map Prod.snd = batchOrder e.cfg e.sched.schedule.1.scheduled)
    (ready : Batch.Turns e.sched.schedule.2 turns) :
    ∀ turn ∈ turns, turn.1.isEmbedding = true → service.steady turn.1 turn.1.numComputedTokens := by
  intro turn member embedding
  have entry : turn.2 ∈ batchOrder e.cfg e.sched.schedule.1.scheduled := by
    rw [← order]
    exact mem_map.mpr ⟨turn, member, rfl⟩
  exact steady turn.2 ((batchOrder_perm _ _).mem_iff.mp entry) turn.1
    (ready.running turn member) (ready.handle turn member) embedding

theorem Invariant.stepBody (inv : e.Invariant service known) (sound : service.Sound known)
    (knows : e.sched.Knows known) {input : StepInput}
    (steady : input.failure = none → e.SteadyStep service) :
    (e.stepBody input).1.Invariant service known ∧
      Pooled service known e (e.stepBody input).1 := by
  have planned : Pooled service known e e.planned := fun _ rule => rule.schedule inv knows
  obtain ⟨scheduled, knows, turns, order, ready⟩ := inv.schedule sound knows
  rcases e.stepBody_cases input with ⟨_, ⟨shape, _⟩ | ⟨_, shape | ⟨shape, _⟩⟩⟩ | shape
  · rw [shape]
    exact ⟨inv, fun _ _ first => first⟩
  · rw [shape]
    exact ⟨scheduled, planned⟩
  · rw [shape]
    exact scheduled.failUnschedulable.imp_right planned.trans
  · rw [shape, computed, ← order]
    obtain ⟨computed, _, pooled⟩ := scheduled.compute sound knows ready
      (fun success => (steady success).turns order ready)
    exact ⟨computed, planned.trans pooled⟩

theorem Invariant.handle {result : Engine M × Outcome Bool}
    (inv : result.1.Invariant service known) : (handle result).Invariant service known ∧
      Pooled service known result.1 (handle result) := by
  unfold Engine.handle
  split
  · exact ⟨inv, fun _ _ first => first⟩
  · exact inv.finishAll _ (.inr rfl) _
  · exact ⟨⟨inv.cfg, inv.sched, inv.blockSize, inv.exact, inv.unique, inv.bounded, inv.held, inv.new,
      inv.lives, inv.ended⟩, fun _ _ first => first⟩

theorem Invariant.skipId (inv : e.Invariant service known) :
    ({ e with nextId := e.nextId + 1 } : Engine M).Invariant service known :=
  ⟨inv.cfg, inv.sched, inv.blockSize, inv.exact, inv.unique,
    fun id member => Nat.lt_succ_of_lt (inv.bounded id member), inv.held, inv.new, inv.lives,
    inv.ended⟩

/-- A client hands in a request under the next id. -/
theorem Invariant.enqueue (inv : e.Invariant service known) (new : r.New) (fresh : service.fresh r)
    (id : r.id = e.nextId) :
    ({ e with
        nextId := e.nextId + 1
        newRequests := e.newRequests ++ [r]
        issued := e.issued ++ [e.nextId] } : Engine M).Invariant service known := by
  refine ⟨inv.cfg, inv.sched, inv.blockSize, inv.exact, ?_, ?_, ?_, ?_, ?_, inv.ended⟩
  · refine nodup_append.mpr ⟨inv.unique, nodup_singleton _, ?_⟩
    intro old member other here same
    rw [mem_singleton.mp here] at same
    exact Nat.ne_of_lt (inv.bounded old member) same
  · intro other inside
    rcases mem_append.mp inside with old | here
    · exact Nat.lt_succ_of_lt (inv.bounded other old)
    · rw [mem_singleton.mp here]
      exact Nat.lt_succ_self _
  · have moved : (e.newRequests ++ [r] ++ e.sched.allRequests ++ e.done).Perm
        (e.newRequests ++ e.sched.allRequests ++ e.done ++ [r]) := by
      simp only [append_assoc]
      exact List.Perm.append_left _ (perm_append_comm.trans (by rw [append_assoc]))
    have last : (e.newRequests ++ e.sched.allRequests ++ e.done ++ [r]).map Request.id =
        (e.newRequests ++ e.sched.allRequests ++ e.done).map Request.id ++ [e.nextId] := by
      rw [map_append, map_singleton, id]
    exact (moved.map Request.id).trans (last ▸ inv.held.append_right _)
  · exact forall_mem_append.mpr ⟨inv.new, forall_mem_singleton.mpr new⟩
  · intro other inside
    rcases mem_append.mp inside with added | live
    · rcases mem_append.mp added with old | here
      · exact inv.lives other (mem_append_left _ old)
      · rw [mem_singleton.mp here]
        exact .submit fresh
    · exact inv.living live

theorem generationRequest_new (seed : UInt64) (id : Nat) (prompt : List Token)
    (params : SamplingParams) (opts : RequestOptions) (grammar : Option M.Grammar) :
    (generationRequest M seed id prompt params opts grammar).New := rfl

theorem embeddingRequest_new (id : Nat) (prompt : List Token) (pooling : Pooling)
    (normalize : Bool) (opts : RequestOptions) :
    (embeddingRequest M id prompt pooling normalize opts).New := rfl

theorem Invariant.submit (inv : e.Invariant service known) {prompt : List Token}
    {opts : RequestOptions} (fresh : ∀ grammar, grammarOf M params = .ok grammar →
      (e.submit prompt params opts).1 = .ok e.nextId →
      service.fresh (generationRequest M service.cfg.seed e.nextId prompt params opts grammar)) :
    (e.submit prompt params opts).2.Invariant service known := by
  rcases e.submit_cases prompt params opts with ⟨_, shape⟩ | ⟨_, shape⟩ | ⟨grammar, made, shape⟩
  · rw [shape]
    exact inv
  · rw [shape]
    exact inv.skipId
  have start := fresh grammar made (by rw [shape])
  rw [← inv.cfg] at start
  rw [shape]
  exact inv.enqueue (generationRequest_new _ _ _ _ _ _) start rfl

theorem Invariant.submitEmbedding (inv : e.Invariant service known)
    (fresh : (e.submitEmbedding prompt pooling normalize opts).1 = .ok e.nextId →
      service.fresh (embeddingRequest M e.nextId prompt pooling normalize opts)) :
    (e.submitEmbedding prompt pooling normalize opts).2.Invariant service known := by
  rcases e.submitEmbedding_cases prompt pooling normalize opts with ⟨_, shape⟩ | shape
  · rw [shape]
    exact inv
  · have start := fresh (by rw [shape])
    rw [shape]
    exact inv.enqueue (embeddingRequest_new _ _ _ _ _) start rfl

theorem new_invariant (service : Service M) (known : Registration → Prop) :
    (new M service.cfg).Invariant service known := by
  have idle : (new M service.cfg).sched.allRequests = [] := rfl
  have empty : (new M service.cfg).newRequests ++ (new M service.cfg).sched.allRequests = [] := rfl
  obtain ⟨layout, exact⟩ := @Layout.new M service.cfg.numBlocks _ service.cfg.enablePrefixCaching
    service.cfg.blockSize_pos known
  refine ⟨rfl, ⟨?_, ?_, ?_, layout⟩, rfl, fun _ => exact, nodup_nil, ?_, ?_, ?_, ?_, ?_⟩
  · rw [idle]
    exact nodup_nil
  · simp [new]
  · simp [new]
  · simp [new]
  · rw [empty]
    exact .refl _
  · simp [new]
  · simp [empty]
  · simp [new]

/-- The id a call returns to its client. -/
def Action.returns (e : Engine M) : Action → Option Nat
  | .submit prompt params opts => (e.submit prompt params opts).1.toOption
  | .submitEmbedding prompt pooling normalize opts =>
    (e.submitEmbedding prompt pooling normalize opts).1.toOption
  | .abort _ => none
  | .step _ => none

/-- The call of a run that returned `id` to its client. -/
structure Called (M : Model) (cfg : EngineConfig) (actions before : List Action) (action : Action)
    (id : Nat) : Prop where
  within : before ++ [action] <+: actions
  alive : (run M cfg before).crashed = false
  returned : action.returns (run M cfg before) = some id

/-- The request `r` was made by a call of the run that returned its id. -/
inductive Submitted (M : Model) (cfg : EngineConfig) (actions : List Action) : Request M → Prop
  | generation {before : List Action} {prompt : List Token} {params : SamplingParams}
      {opts : RequestOptions} {grammar : Option M.Grammar} {id : Nat}
      (called : Called M cfg actions before (.submit prompt params opts) id)
      (made : grammarOf M params = .ok grammar) :
      Submitted M cfg actions (generationRequest M cfg.seed id prompt params opts grammar)
  | embedding {before : List Action} {prompt : List Token} {pooling : Pooling}
      {normalize : Bool} {opts : RequestOptions} {id : Nat}
      (called : Called M cfg actions before (.submitEmbedding prompt pooling normalize opts) id) :
      Submitted M cfg actions (embeddingRequest M id prompt pooling normalize opts)

theorem run_concat (M : Model) (cfg : EngineConfig) (actions : List Action) (action : Action) :
    run M cfg (actions ++ [action]) = (run M cfg actions).act action := by
  rw [run, foldl_append]
  rfl

/-- What is asked of a run for the invariant of a service to hold along it. -/
structure Serves (service : Service M) (known : Registration → Prop) (actions : List Action) :
    Prop where
  sound : service.Sound known
  fresh : ∀ r, Submitted M service.cfg actions r → service.fresh r
  knows : ∀ before, before <+: actions → (run M service.cfg before).Knows known
  steady : ∀ before input, before ++ [.step input] <+: actions →
    (run M service.cfg before).crashed = false → input.failure = none →
    (run M service.cfg before).ingest.SteadyStep service

theorem Serves.run_invariant (serves : Serves service known actions) (within : before <+: actions) :
    (run M service.cfg before).Invariant service known := by
  induction before using List.reverseRecOn with
  | nil => exact new_invariant service known
  | append_singleton before action ih =>
    have earlier := (prefix_append before [action]).trans within
    have inv := ih earlier
    rw [run_concat]
    unfold act
    split
    · exact inv
    rename_i alive
    rw [Bool.not_eq_true] at alive
    cases action with
    | submit prompt params opts =>
      apply inv.submit
      intro grammar made accepted
      exact serves.fresh _ (.generation ⟨within, alive, by rw [Action.returns, accepted]; rfl⟩ made)
    | submitEmbedding prompt pooling normalize opts =>
      apply inv.submitEmbedding
      intro accepted
      exact serves.fresh _ (.embedding ⟨within, alive, by rw [Action.returns, accepted]; rfl⟩)
    | abort id =>
      exact ⟨inv.cfg, inv.sched, inv.blockSize, inv.exact, inv.unique, inv.bounded, inv.held,
        inv.new, inv.lives, inv.ended⟩
    | step input =>
      exact (inv.ingest.1.stepBody serves.sound (inv.ingest_knows (serves.knows _ earlier))
        (serves.steady before input within alive)).1.handle.1

/-- The block chains of a run: the leading tokens of the requests it holds at some time,
under their salts. -/
def chains (M : Model) (cfg : EngineConfig) (actions : List Action) (entry : Registration) : Prop :=
  ∃ before, before <+: actions ∧
    ∃ r ∈ (run M cfg before).newRequests ++ (run M cfg before).sched.allRequests,
      entry.PartOf r.opts.cacheSalt r.tokens

/-- Requests that follow one token list have no collision when the hashes of its blocks
differ. -/
theorem collisionFree_of_line {cfg : EngineConfig} {actions : List Action} {salt : UInt64}
    {tokens : List Token} (distinct : (chainHashes cfg.blockSize tokens salt
      (tokens.length / cfg.blockSize)).Nodup)
    (held : ∀ before ∈ actions.inits, ∀ r ∈ (run M cfg before).newRequests ++
      (run M cfg before).sched.allRequests, r.opts.cacheSalt = salt ∧ r.tokens <+: tokens) :
    CollisionFree cfg.blockSize (chains M cfg actions) := by
  have size := cfg.blockSize_pos
  have line : ∀ entry, chains M cfg actions entry → ∀ i,
      entry.chain.length = (i + 1) * cfg.blockSize →
      entry = ⟨salt, tokens.take ((i + 1) * cfg.blockSize)⟩ ∧ i < tokens.length / cfg.blockSize := by
    rintro ⟨own, chain⟩ ⟨before, within, r, member, same, leading⟩ i length
    obtain ⟨salted, continues⟩ := held before ((mem_inits _ _).mpr within) r member
    have inside : chain <+: tokens := leading.trans continues
    have bound := inside.length_le
    refine ⟨?_, (Nat.le_div_iff_mul_le size).mpr (length ▸ bound)⟩
    rw [← length, ← prefix_iff_eq_take.mp inside]
    exact congrArg₂ Registration.mk (same.trans salted) rfl
  intro left right leftKnown rightKnown i j leftLength rightLength equal
  obtain ⟨leftShape, low⟩ := line left leftKnown i leftLength
  obtain ⟨rightShape, high⟩ := line right rightKnown j rightLength
  have whole : ∀ count, chainHash cfg.blockSize (tokens.take (count * cfg.blockSize)) salt count =
      chainHash cfg.blockSize tokens salt count := by
    intro count
    apply chainHash_congr
    rw [take_take, Nat.min_self]
  rw [leftShape, rightShape, whole, whole] at equal
  have same : i = j := by
    apply (getElem?_inj (by simpa using low) distinct).mp
    rw [chainHashes_getElem? _ _ _ low, chainHashes_getElem? _ _ _ high, equal]
  rw [leftShape, rightShape, same]

/-- What a run does for its requests when nothing is asked of their pooling. -/
def runService (M : Model) (cfg : EngineConfig) (actions : List Action) : Service M where
  cfg := cfg
  fresh := Submitted M cfg actions
  exact := CollisionFree cfg.blockSize (chains M cfg actions)
  steady := fun _ _ => True

theorem Submitted.new {cfg : EngineConfig} {actions : List Action} {r : Request M}
    (submitted : Submitted M cfg actions r) : r.New := by
  cases submitted with
  | generation => exact generationRequest_new _ _ _ _ _ _
  | embedding => exact embeddingRequest_new _ _ _ _ _

theorem runService_sound : (runService M cfg actions).Sound (chains M cfg actions) :=
  ⟨fun _ submitted => submitted.new, fun free => free, fun _ _ _ _ _ => trivial⟩

section

variable (M : Model) (cfg : EngineConfig) (actions : List Action)

theorem run_serves :
    Serves (runService M cfg actions) (chains M cfg actions) actions := by
  refine ⟨runService_sound, fun _ submitted => submitted, ?_, fun _ _ _ _ _ _ _ _ _ _ _ => trivial⟩
  intro before within r member entry part
  exact ⟨before, within, r, member, part⟩

/-- The invariant of every run. -/
theorem run_invariant :
    (run M cfg actions).Invariant (runService M cfg actions) (chains M cfg actions) :=
  (run_serves M cfg actions).run_invariant (prefix_refl actions)

theorem run_knows :
    (run M cfg actions).Knows (chains M cfg actions) :=
  fun r member _ part => ⟨actions, prefix_refl _, r, member, part⟩

end

theorem act_nextId (e : Engine M) (action : Action) : e.nextId ≤ (e.act action).nextId := by
  unfold act
  split
  · exact Nat.le_refl _
  cases action with
  | submit prompt params opts =>
    rcases e.submit_cases prompt params opts with
      ⟨_, shape⟩ | ⟨_, shape⟩ | ⟨_, _, shape⟩ <;> simp [shape]
  | submitEmbedding prompt pooling normalize opts =>
    rcases e.submitEmbedding_cases prompt pooling normalize opts with
      ⟨_, shape⟩ | shape <;> simp [shape]
  | abort id => exact Nat.le_refl _
  | step input =>
    obtain ⟨_, same⟩ := e.step_ambient input
    exact Nat.le_of_eq (congrArg Ambient.nextId same).symm

theorem run_nextId (within : before <+: actions) :
    (run M cfg before).nextId ≤ (run M cfg actions).nextId := by
  obtain ⟨after, rfl⟩ := within
  induction after using List.reverseRecOn with
  | nil => rw [append_nil]
  | append_singleton after action ih =>
    rw [← append_assoc, run_concat]
    exact Nat.le_trans ih (act_nextId _ _)

theorem Action.returns_nextId (returned : action.returns e = some id) (alive : e.crashed = false) :
    id = e.nextId ∧ (e.act action).nextId = id + 1 := by
  unfold act
  rw [alive, if_neg (by decide)]
  cases action with
  | submit prompt params opts =>
    rw [returns] at returned
    rcases e.submit_cases prompt params opts with
      ⟨_, shape⟩ | ⟨_, shape⟩ | ⟨_, _, shape⟩ <;> rw [shape] at returned <;> cases returned
    exact ⟨rfl, by simp only [shape]⟩
  | submitEmbedding prompt pooling normalize opts =>
    rw [returns] at returned
    rcases e.submitEmbedding_cases prompt pooling normalize opts with
      ⟨_, shape⟩ | shape <;> rw [shape] at returned <;> cases returned
    exact ⟨rfl, by simp only [shape]⟩
  | abort id => cases returned
  | step input => cases returned

/-- No later call returns the id again. -/
theorem Called.not_later {later : List Action} (called : Called M cfg actions before action id)
    (after : before ++ [action] <+: later) (next : Action)
    (alive : (run M cfg later).crashed = false) : next.returns (run M cfg later) ≠ some id := by
  intro again
  have passed : _ ≤ (run M cfg later).nextId := run_nextId after
  rw [run_concat, (Action.returns_nextId called.returned called.alive).2,
    ← (Action.returns_nextId again alive).1] at passed
  omega

theorem Called.unique {other : List Action} {next : Action}
    (left : Called M cfg actions before action id) (right : Called M cfg actions other next id) :
    before = other ∧ action = next := by
  have same : before ++ [action] = other ++ [next] := by
    rcases prefix_or_prefix_of_prefix left.within right.within with first | first
    · rcases prefix_concat_iff.mp first with same | earlier
      · exact same
      · exact (left.not_later earlier next right.alive right.returned).elim
    · rcases prefix_concat_iff.mp first with same | earlier
      · exact same.symm
      · exact (right.not_later earlier action left.alive left.returned).elim
  obtain ⟨first, last⟩ := append_inj' same rfl
  exact ⟨first, singleton_inj.mp last⟩

theorem Submitted.generation_eq {grammar : Option M.Grammar}
    (called : Called M cfg actions before (.submit prompt params opts) id)
    (made : grammarOf M params = .ok grammar) (submitted : Submitted M cfg actions r)
    (same : r.id = id) : r = generationRequest M cfg.seed id prompt params opts grammar := by
  subst same
  cases submitted with
  | generation other here =>
    obtain ⟨_, equal⟩ := other.unique called
    cases equal
    rw [made] at here
    cases here
    rfl
  | embedding other => cases (other.unique called).2

theorem Submitted.embedding_eq
    (called : Called M cfg actions before (.submitEmbedding prompt pooling normalize opts) id)
    (submitted : Submitted M cfg actions r) (same : r.id = id) :
    r = embeddingRequest M id prompt pooling normalize opts := by
  subst same
  cases submitted with
  | generation other _ => cases (other.unique called).2
  | embedding other =>
    obtain ⟨_, equal⟩ := other.unique called
    cases equal
    rfl

end Engine

end Iian
