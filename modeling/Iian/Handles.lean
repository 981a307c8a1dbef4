import Iian.EngineRun

/- The accesses of the three passes of a step through the handles of the scheduled requests,
and which of them find their request released. -/
namespace Iian

open List Lib

variable {M : Model}

def RowsEnd.isStop : RowsEnd → Bool
  | .stop _ => true
  | _ => false

namespace Request

/-- Whether a stop rule ends the row loop depends on the generation state alone. -/
theorem verifyRows_congr (maxModelLen : Nat) (rows : List (List M.Logit)) (drafts : List Token)
    {left right : Request M} (same : left.toGen = right.toGen) :
    (verifyRows maxModelLen rows drafts left).2 = (verifyRows maxModelLen rows drafts right).2 := by
  induction rows generalizing drafts left right with
  | nil => rfl
  | cons row rows ih =>
    rw [verifyRows, verifyRows, same]
    split
    · rfl
    · rfl
    rename_i sampled gen stop _
    cases drafts with
    | nil => rfl
    | cons draft drafts =>
      dsimp only
      split
      · split
        · rfl
        have rest : (verifyRows maxModelLen rows drafts (left.pushRow sampled gen)).2 =
            (verifyRows maxModelLen rows drafts (right.pushRow sampled gen)).2 :=
          ih drafts rfl
        exact congrArg (fun result => (result.1 + 1, result.2)) rest
      · rfl

theorem verify_congr (maxModelLen nSpec : Nat) (rows : List (List M.Logit))
    {left right : Request M} (same : left.toGen = right.toGen)
    (drafts : left.specTokens = right.specTokens) :
    (left.verify maxModelLen rows nSpec).2 = (right.verify maxModelLen rows nSpec).2 := by
  rw [verify_ended, verify_ended, drafts, verifyRows_congr maxModelLen rows _ same]

end Request

variable {id : Nat}

namespace Engine

/-- The handles that are not dangling. -/
def handles (e : Engine M) : List Nat := e.sched.running.map Request.id

def AllLive (e : Engine M) : Prop := ∀ access ∈ e.accesses, access.live = true

variable {e next : Engine M} {r : Request M}

theorem find_of_handle (held : id ∈ e.handles) : ∃ r, e.sched.find id = some r := by
  obtain ⟨r, member, same⟩ := mem_map.mp held
  rw [← Option.isSome_iff_exists, Scheduler.find, find?_isSome]
  exact ⟨r, member, by simpa using same⟩

/-- A turn of a pass: it goes through the handle `id` first and touches no other request.
It releases its own request only if `keeps` fails. -/
structure Turned (e next : Engine M) (id : Nat) (keeps : Request M → Prop) : Prop where
  accesses : next.accesses = (e.access id).accesses
  others : ∀ r ∈ next.sched.running, r.id ≠ id → r ∈ e.sched.running
  held : ∀ other ∈ e.handles, other ≠ id → other ∈ next.handles
  own : ∀ r, e.sched.find id = some r → keeps r → id ∈ next.handles

theorem Turned.access (e : Engine M) (id : Nat) (keeps : Request M → Prop) :
    Turned e (e.access id) id keeps :=
  ⟨rfl, fun _ member _ => member, fun _ member _ => member,
    fun r found _ => mem_map.mpr ⟨r, Scheduler.mem_of_find found⟩⟩

theorem Turned.store (handle : r.id = id) (keeps : Request M → Prop) :
    Turned e ((e.access id).store r) id keeps := by
  have same : ((e.access id).store r).handles = e.handles := Keyed.replace_keys _ _
  refine ⟨rfl, ?_, ?_, ?_⟩
  · intro other member different
    rcases Scheduler.mem_store.mp member with ⟨old, _⟩ | ⟨new, _⟩
    · exact old
    · exact (different (by rw [new]; exact handle)).elim
  · intro other member _
    rw [same]
    exact member
  · intro old found _
    rw [same]
    exact mem_map.mpr ⟨old, Scheduler.mem_of_find found⟩

theorem Turned.finish (handle : r.id = id) {keeps : Request M → Prop}
    (released : ∀ old, e.sched.find id = some old → ¬ keeps old) (status : RequestStatus)
    (why : FinishReason) (error : String) :
    Turned e ((e.access id).finish r status why error) id keeps := by
  unfold Engine.finish Scheduler.finishRequest
  split
  · exact Turned.access e id keeps
  dsimp only
  split
  · refine ⟨rfl, ?_, ?_, ?_⟩
    · intro other member _
      exact (Keyed.mem_remove.mp member).1
    · intro other member different
      obtain ⟨old, inside, same⟩ := mem_map.mp member
      refine mem_map.mpr ⟨old, Keyed.mem_remove.mpr ⟨inside, ?_⟩, same⟩
      rw [same]
      intro equal
      exact different (equal.trans handle)
    · intro old found keep
      exact (released old found keep).elim
  · exact ⟨rfl, fun _ member _ => member, fun _ member _ => member,
      fun old found _ => mem_map.mpr ⟨old, Scheduler.mem_of_find found⟩⟩

/-- A pass over handles, which an exception may leave early. -/
inductive Pass {β : Type} (key : β → Nat) (keeps : β → Request M → Prop) :
    Engine M → List β → Engine M → Prop
  | done (e : Engine M) : Pass key keeps e [] e
  | left {e next : Engine M} {item : β} {items : List β}
      (turn : Turned e next (key item) (keeps item)) : Pass key keeps e (item :: items) next
  | turn {e middle next : Engine M} {item : β} {items : List β}
      (turn : Turned e middle (key item) (keeps item)) (rest : Pass key keeps middle items next) :
      Pass key keeps e (item :: items) next

section

variable {β : Type} {key : β → Nat} {keeps : β → Request M → Prop} {items : List β}

/-- A pass that starts with all its handles live never meets a dangling one. -/
theorem Pass.live (pass : Pass key keeps e items next) (unique : (items.map key).Nodup)
    (held : ∀ item ∈ items, key item ∈ e.handles) (live : e.AllLive) : next.AllLive := by
  have first : ∀ {e next : Engine M} {item : β}, Turned e next (key item) (keeps item) →
      key item ∈ e.handles → e.AllLive → next.AllLive := by
    intro e next item turned here live access member
    rw [turned.accesses] at member
    rcases mem_append.mp member with old | new
    · exact live access old
    · rw [mem_singleton.mp new]
      exact Option.isSome_iff_exists.mpr (find_of_handle here)
  induction pass with
  | done e => exact live
  | left turned => exact first turned (held _ mem_cons_self) live
  | @turn e middle next item items turned _ ih =>
    rw [map_cons, nodup_cons] at unique
    refine ih unique.2 ?_ (first turned (held _ mem_cons_self) live)
    intro later inside
    refine turned.held _ (held later (mem_cons_of_mem _ inside)) ?_
    intro same
    exact unique.1 (mem_map.mpr ⟨later, inside, same⟩)

/-- A pass that releases none of its requests keeps every handle. -/
theorem Pass.kept (pass : Pass key keeps e items next) (unique : (items.map key).Nodup)
    (all : ∀ item ∈ items, ∀ r ∈ e.sched.running, r.id = key item → keeps item r) :
    ∀ id ∈ e.handles, id ∈ next.handles := by
  have first : ∀ {e next : Engine M} {item : β}, Turned e next (key item) (keeps item) →
      (∀ r ∈ e.sched.running, r.id = key item → keeps item r) →
      ∀ id ∈ e.handles, id ∈ next.handles := by
    intro e next item turned keep id member
    by_cases same : id = key item
    · rw [same] at member ⊢
      obtain ⟨r, found⟩ := find_of_handle member
      obtain ⟨inside, handle⟩ := Scheduler.mem_of_find found
      exact turned.own r found (keep r inside handle)
    · exact turned.held id member same
  induction pass with
  | done e => exact fun _ member => member
  | left turned => exact first turned (all _ mem_cons_self)
  | @turn e middle next item items turned _ ih =>
    rw [map_cons, nodup_cons] at unique
    intro id member
    refine ih unique.2 ?_ id (first turned (all _ mem_cons_self) id member)
    intro later inside r running handle
    apply all later (mem_cons_of_mem _ inside) r _ handle
    apply turned.others r running
    rw [handle]
    intro same
    exact unique.1 (mem_map.mpr ⟨later, inside, same⟩)

end

/-- An embedding request is released in the chunk that reaches its last token. -/
theorem embedTurn_turned (hidden : List M.Embedding) (e : Engine M)
    (turn : ScheduledRequest × Option (Nat × Nat)) :
    Turned e (embedTurn hidden e turn) turn.1.req
      (fun r => r.isEmbedding = true → r.numComputedTokens < r.nTokens) := by
  unfold embedTurn
  dsimp only
  split
  · exact Turned.access e _ _
  rename_i r found
  have handle := (Scheduler.mem_of_find found).2
  split
  · exact Turned.access e _ _
  rename_i chosen
  split
  · rename_i reached
    apply Turned.finish (show (r.poolRows _).embed.id = _ from handle)
    intro old here keeps
    have same : r = old := Option.some.inj (found.symm.trans here)
    have embedding : r.isEmbedding = true := by
      cases kind : r.isEmbedding with
      | true => rfl
      | false => simp [kind] at chosen
    change r.nTokens ≤ r.numComputedTokens at reached
    rw [← same] at keeps
    exact Nat.not_lt.mpr reached (keeps embedding)
  · exact Turned.store (show (r.poolRows _).id = _ from handle) _

theorem embedTurns_pass (hidden : List M.Embedding)
    (turns : List (ScheduledRequest × Option (Nat × Nat))) (e : Engine M) :
    Pass (fun turn => turn.1.req)
      (fun _ r => r.isEmbedding = true → r.numComputedTokens < r.nTokens) e turns
      (turns.foldl (embedTurn hidden) e) := by
  induction turns generalizing e with
  | nil => exact .done e
  | cons turn turns ih => exact .turn (embedTurn_turned hidden e turn) (ih _)

/-- The output rows of a turn do not meet a stop rule. -/
def GoesOn (maxModelLen : Nat) (logits : List (List M.Logit))
    (turn : ScheduledRequest × Option Nat) (r : Request M) : Prop :=
  r.isEmbedding = false → ∀ first ∈ turn.2,
    (r.verify maxModelLen ((logits.drop first).take (turn.1.nSpec + 1)) turn.1.nSpec).2.isStop =
      false

instance (maxModelLen : Nat) (logits : List (List M.Logit))
    (turn : ScheduledRequest × Option Nat) (r : Request M) :
    Decidable (GoesOn maxModelLen logits turn r) := by
  unfold GoesOn
  infer_instance

theorem outputTurn_turned (logits : List (List M.Logit)) (e : Engine M)
    (turn : ScheduledRequest × Option Nat) :
    Turned e (e.outputTurn logits turn).1 turn.1.req (GoesOn e.cfg.maxModelLen logits turn) := by
  unfold outputTurn
  dsimp only
  split
  · exact Turned.access e _ _
  rename_i r found
  have handle := (Scheduler.mem_of_find found).2
  split
  · exact Turned.access e _ _
  rename_i chosen
  split
  · exact Turned.access e _ _
  rename_i first row
  have same : ∀ {next ended}, r.verify e.cfg.maxModelLen
      ((logits.drop first).take (turn.1.nSpec + 1)) turn.1.nSpec = (next, ended) →
      next.id = turn.1.req := by
    intro next ended shape
    have kept := r.verify_place e.cfg.maxModelLen turn.1.nSpec
      ((logits.drop first).take (turn.1.nSpec + 1))
    rw [shape] at kept
    exact kept.1.trans handle
  split
  · rename_i next message shape
    exact Turned.store (same shape) _
  · rename_i next shape
    exact Turned.store (same shape) _
  · rename_i next why shape
    apply Turned.finish (same shape)
    intro old here keeps
    rw [← Option.some.inj (found.symm.trans here)] at keeps
    have generation : r.isEmbedding = false := by
      cases kind : r.isEmbedding with
      | false => rfl
      | true => simp [kind] at chosen
    have goes := keeps generation first row
    have stopped := congrArg (fun result => RowsEnd.isStop result.2) shape
    cases goes.symm.trans stopped
  · rename_i next shape
    refine Turned.store ?_ _
    rw [(continued_fields _ next).1]
    exact same shape

theorem outputTurns_pass (logits : List (List M.Logit))
    (turns : List (ScheduledRequest × Option Nat)) (e : Engine M) :
    Pass (fun turn => turn.1.req) (GoesOn e.cfg.maxModelLen logits) e turns
      (outputTurns logits turns e).1 := by
  induction turns generalizing e with
  | nil => exact .done e
  | cons turn turns ih =>
    have first := outputTurn_turned logits e turn
    have cfg := congrArg Ambient.cfg (ambient_frame.outputTurn logits e turn)
    unfold outputTurns
    split
    · rename_i middle shape
      rw [shape] at first cfg
      have rest := ih middle
      rw [show middle.cfg = e.cfg from cfg] at rest
      exact .turn first rest
    · exact .left first

theorem draftTurn_turned (drafts : Nat → List Token) (e : Engine M) (entry : ScheduledRequest) :
    Turned e (draftTurn drafts e entry) entry.req (fun _ => True) := by
  unfold draftTurn
  dsimp only
  split
  · exact Turned.access e _ _
  rename_i r found
  split
  · refine Turned.store ?_ _
    exact (Scheduler.mem_of_find found).2
  · exact Turned.access e _ _

theorem draftTurns_pass (drafts : Nat → List Token) (entries : List ScheduledRequest)
    (e : Engine M) :
    Pass ScheduledRequest.req (fun _ _ => True) e entries (entries.foldl (draftTurn drafts) e) := by
  induction entries generalizing e with
  | nil => exact .done e
  | cons entry entries ih => exact .turn (draftTurn_turned drafts e entry) (ih _)

/-- No scheduled request is released while a later pass still visits it: no embedding
request reaches its last token, and with a draft model no generation request meets a stop
rule. -/
structure Calm (e : Engine M) (scheduled : List ScheduledRequest) : Prop where
  embeddings : ∀ entry ∈ scheduled, ∀ r ∈ e.sched.running, r.id = entry.req →
    r.isEmbedding = true → r.numComputedTokens + entry.nNewTokens < r.nTokens
  generations : e.cfg.drafting = .model →
    ∀ turn ∈ scheduled.zip (Batch.build e.sched scheduled).logitRows,
    ∀ r ∈ e.sched.running, r.id = turn.1.req → GoesOn e.cfg.maxModelLen
      ((Batch.build e.sched scheduled).logits ((Batch.build e.sched scheduled).write e.cells))
      turn r

variable {service : Service M} {known : Registration → Prop} {turns : List (Batch.Turn M)}
    {input : StepInput}

theorem embedded_cfg (e : Engine M) (turns : List (Batch.Turn M)) :
    (e.embedded turns).cfg = e.cfg :=
  congrArg Ambient.cfg (ambient_frame.processEmbeddings (e.committed turns) _ _ _)

section

variable (inv : e.Invariant service known) (sound : service.Sound known)
    (knows : e.sched.Knows known) (scheduled : Batch.Turns e.sched turns)
    (steady : ∀ turn ∈ turns, turn.1.isEmbedding = true → service.steady turn.1 turn.1.numComputedTokens)

include inv sound knows scheduled steady

/-- A generation request behind the pass over the embedding requests is verified as the one that
was scheduled. -/
theorem Invariant.embedded_turn {entry : ScheduledRequest} (member : entry ∈ turns.map Prod.snd)
    (running : r ∈ (e.embedded turns).sched.running) (handle : r.id = entry.req)
    (generation : r.isEmbedding = false) :
    ∃ turn ∈ turns, turn.2 = entry ∧ turn.1.isEmbedding = false ∧ ∀ maxModelLen rows nSpec,
      (r.verify maxModelLen rows nSpec).2 = (turn.1.verify maxModelLen rows nSpec).2 := by
  obtain ⟨turn, inside, rfl⟩ := mem_map.mp member
  have kept := (inv.embedded sound knows scheduled steady).2.1 r running generation
  obtain ⟨content, _⟩ := inv.committed_turn knows scheduled inside kept handle
  have kind : r.isEmbedding = turn.1.isEmbedding := congrArg (fun r => r.isEmbedding) content
  exact ⟨turn, inside, rfl, kind.symm.trans generation, fun maxModelLen rows nSpec =>
    Request.verify_congr maxModelLen nSpec rows (congrArg (fun r => r.toGen) content)
      (congrArg (fun r => r.specTokens) content)⟩

theorem Invariant.compute_live (calm : input.failure = none → e.Calm (turns.map Prod.snd))
    (live : e.AllLive) :
    (e.compute (turns.map Prod.snd) input).1.AllLive := by
  obtain ⟨_, committed⟩ := inv.commits knows scheduled
  have held : ∀ entry ∈ turns.map Prod.snd,
      entry.req ∈ (e.committed turns).sched.running.map Request.id := by
    intro entry member
    obtain ⟨turn, inside, rfl⟩ := mem_map.mp member
    obtain ⟨fresh, running, content, _⟩ := committed.done turn inside
    have same : fresh.id = turn.1.id := congrArg (fun r => r.id) content
    exact mem_map.mpr ⟨fresh, running, same.trans (scheduled.handle turn inside)⟩
  cases failure : input.failure with
  | some thrown =>
    rw [Engine.compute, failure]
    exact live
  | none =>
    rw [compute_success failure]
    obtain ⟨embeddings, generations⟩ := calm failure
    -- no embedding request ends in the first pass, so every handle reaches the second
    have first : (e.embedded turns).AllLive ∧
        ∀ entry ∈ turns.map Prod.snd, entry.req ∈ (e.embedded turns).handles := by
      unfold Engine.embedded Engine.processEmbeddings
      split
      · have pass := embedTurns_pass ((e.batchOf turns).hidden (e.committed turns).cells)
          ((turns.map Prod.snd).zip (e.batchOf turns).embdRows) (e.committed turns)
        refine ⟨pass.live (unique_turns scheduled _)
          (fun turn member => held turn.1 (of_mem_zip member).1) live, ?_⟩
        intro entry member
        refine pass.kept (unique_turns scheduled _) ?_ _ (held entry member)
        rintro ⟨entry, row⟩ zipped r running handle embedding
        obtain ⟨turn, inside, rfl⟩ := mem_map.mp (of_mem_zip zipped).1
        obtain ⟨content, computed⟩ := inv.committed_turn knows scheduled inside running handle
        have kind : r.isEmbedding = turn.1.isEmbedding := congrArg (fun r => r.isEmbedding) content
        have tokens : r.tokens = turn.1.tokens := congrArg (fun r => r.tokens) content
        rw [computed]
        change _ < r.tokens.length
        rw [tokens]
        exact embeddings turn.2 (mem_map.mpr ⟨turn, inside, rfl⟩) turn.1
          (scheduled.running turn inside) (scheduled.handle turn inside) (kind.symm.trans embedding)
      · exact ⟨live, held⟩
    have pass := outputTurns_pass ((e.batchOf turns).logits (e.committed turns).cells)
      ((turns.map Prod.snd).zip (e.batchOf turns).logitRows) (e.embedded turns)
    have last := congrArg Ambient.cfg (ambient_frame.outputTurns
      ((e.batchOf turns).logits (e.committed turns).cells)
      ((turns.map Prod.snd).zip (e.batchOf turns).logitRows) (e.embedded turns))
    rw [e.embedded_cfg turns] at pass
    have outputs := pass.live (unique_turns scheduled _)
      (fun turn member => first.2 turn.1 (of_mem_zip member).1) first.1
    rw [Engine.processOutputs]
    split
    · rename_i next result
      rw [result] at outputs pass last
      split
      · rename_i drafting
        refine (draftTurns_pass input.drafts (turns.map Prod.snd) next).live
          scheduled.entries_unique ?_ outputs
        intro entry member
        refine pass.kept (unique_turns scheduled _) ?_ _ (first.2 entry member)
        rintro ⟨entry, row⟩ zipped r running handle generation first found
        obtain ⟨turn, inside, rfl, kind, same⟩ := inv.embedded_turn sound knows scheduled steady
          (of_mem_zip zipped).1 running handle generation
        rw [same]
        have config : next.cfg = (e.embedded turns).cfg := last
        rw [config, e.embedded_cfg turns] at drafting
        exact generations drafting _ zipped turn.1 (scheduled.running turn inside)
          (scheduled.handle turn inside) kind first found
      · exact outputs
    · exact outputs

end

theorem finish_accesses (e : Engine M) (r : Request M) (status : RequestStatus)
    (why : FinishReason) (error : String) :
    (e.finish r status why error).accesses = e.accesses := by
  unfold finish
  split <;> rfl

/-- Ending requests, whichever of a list are chosen, goes through no handle of a batch. -/
theorem foldl_accesses {β : Type} {turn : Engine M → β → Engine M}
    (same : ∀ e item, (turn e item).accesses = e.accesses) (items : List β) (e : Engine M) :
    (items.foldl turn e).accesses = e.accesses :=
  foldlRecOn (motive := fun next => next.accesses = e.accesses) items turn rfl
    fun next old item _ => (same next item).trans old

theorem finishAll_accesses (e : Engine M) (status : RequestStatus) (why : FinishReason)
    (error : String) : (e.finishAll status why error).accesses = e.accesses :=
  foldl_accesses (fun _ _ => finish_accesses _ _ _ _ _) _ e

theorem failUnschedulable_accesses (e : Engine M) :
    e.failUnschedulable.accesses = e.accesses := by
  refine foldl_accesses ?_ _ e
  intro e r
  split
  · exact finish_accesses _ _ _ _ _
  · rfl

theorem ingest_accesses (e : Engine M) : e.ingest.accesses = e.accesses := by
  refine foldl_accesses ?_ _ _
  intro e id
  unfold finishAbort
  split
  · rfl
  · exact finish_accesses _ _ _ _ _

/-- The condition on a step: it is calm unless its computation fails. -/
def CalmStep (e : Engine M) (input : StepInput) : Prop :=
  input.failure = none → Calm { e.ingest with sched := e.ingest.sched.schedule.2 }
    (batchOrder e.cfg e.ingest.sched.schedule.1.scheduled)

theorem Invariant.step_live (inv : e.Invariant service known) (sound : service.Sound known)
    (knows : e.Knows known) (steady : e.ingest.SteadyStep service) (calm : e.CalmStep input)
    (live : e.AllLive) : (Engine.handle (e.step input)).AllLive := by
  have start : e.ingest.AllLive := by
    unfold AllLive
    rw [ingest_accesses]
    exact live
  have cfg : e.ingest.cfg = e.cfg := congrArg Ambient.cfg e.ingest_ambient
  obtain ⟨scheduled, knows, turns, order, ready⟩ :=
    inv.ingest.1.schedule sound (inv.ingest_knows knows)
  have body : (e.ingest.stepBody input).1.AllLive := by
    rcases e.ingest.stepBody_cases input with ⟨_, ⟨shape, _⟩ | ⟨_, shape | ⟨shape, _⟩⟩⟩ | shape
    · rw [shape]
      exact start
    · rw [shape]
      exact start
    · rw [shape, AllLive, failUnschedulable_accesses]
      exact start
    · rw [CalmStep, ← cfg, ← order] at calm
      rw [shape, computed, ← order]
      exact scheduled.compute_live sound knows ready (steady.turns order ready) calm start
  unfold Engine.step Engine.handle
  split
  · rename_i shape
    rw [shape] at body
    exact body
  · rename_i shape
    rw [shape] at body
    unfold AllLive
    rw [finishAll_accesses]
    exact body
  · rename_i shape
    rw [shape] at body
    exact body

theorem run_act_live {cfg : EngineConfig} {actions : List Action} {action : Action}
    (calm : ∀ input, action = .step input → (run M cfg actions).crashed = false →
      (run M cfg actions).CalmStep input)
    (live : (run M cfg actions).AllLive) : ((run M cfg actions).act action).AllLive := by
  rcases (run M cfg actions).act_cases action with ⟨input, same, alive, stepped⟩ | ⟨_, idle⟩
  · rw [stepped]
    exact (run_invariant M cfg actions).step_live runService_sound (run_knows M cfg actions)
      (fun _ _ _ _ _ _ => trivial) (calm input same alive) live
  · rw [AllLive, idle.accesses]
    exact live

/-- In a run whose steps are all calm, every access through a handle of a scheduled request
finds the request running. -/
theorem run_allLive (M : Model) (cfg : EngineConfig) (actions : List Action)
    (calm : ∀ before input, before ++ [.step input] <+: actions →
      (run M cfg before).crashed = false → (run M cfg before).CalmStep input) :
    (run M cfg actions).AllLive := by
  induction actions using List.reverseRecOn with
  | nil => exact fun access member => by cases member
  | append_singleton actions action ih =>
    rw [run_concat]
    refine run_act_live ?_ (ih fun before input within =>
      calm before input (within.trans (prefix_append _ _)))
    rintro input rfl alive
    exact calm actions input prefix_rfl alive

/-- A draft model and steps of at most three tokens. -/
def draftingConfig : EngineConfig where
  maxModelLen := 8
  numBlocks := 4
  drafting := .model
  blockSize_pos := Nat.succ_pos 15
  sched := { maxNumBatchedTokens := 3 }

/-- A generation request that goes on and a chunk of an embedding request in one step. -/
theorem run_allLive_mixed :
    (run Model.counting draftingConfig
      [.submit [1] {} {}, .submitEmbedding [1, 2, 3] .mean true {}, .step {}]).AllLive := by
  apply run_allLive
  rintro before input ⟨rest, same⟩ _
  rcases before with _ | ⟨first, _ | ⟨second, _ | ⟨third, before⟩⟩⟩ <;>
    simp only [nil_append, cons_append, List.cons.injEq, reduceCtorEq, false_and, and_false] at same
  · obtain ⟨rfl, rfl, step, _⟩ := same
    cases step
    exact fun _ => ⟨by decide +kernel, by decide +kernel⟩
  · simp at same

/-- An embedding request that is released by the first pass is visited by the second, and
with a draft model a request that is released by the second pass is visited by the third. -/
theorem run_dangling :
    (∃ access ∈ (run Model.counting draftingConfig
      [.submitEmbedding [1] .mean true {}, .step {}]).accesses, access.live = false) ∧
    ∃ access ∈ (run Model.counting draftingConfig
      [.submit [1] { maxTokens := 1 } {}, .step {}]).accesses, access.live = false := by
  decide +kernel

end Engine

end Iian
