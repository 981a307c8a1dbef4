import Iian.EngineRun

/- The order of `running_ ++ waiting_`, and which requests `schedule` preempts. -/
namespace Iian

open List Lib

variable {M : Model}

/-- The ids of `running_ ++ waiting_`. -/
def Scheduler.order (s : Scheduler M) : List Nat := s.allRequests.map Request.id

theorem Scheduler.order_eq (s : Scheduler M) :
    s.order = s.running.map Request.id ++ s.waiting.map Request.id := map_append

theorem Scheduler.store_order (s : Scheduler M) (r : Request M) : (s.store r).order = s.order := by
  rw [order_eq, order_eq]
  exact congrArg (· ++ s.waiting.map Request.id) (Keyed.replace_keys r s.running)

namespace Plan

variable {plan next : Plan M}

/-- Under FCFS the last running request and the first waiting one are neighbours, and
every step of `schedule` moves the border between them. -/
theorem Step.order (step : Step plan next) (fcfs : plan.sched.cfg.policy = .fcfs)
    (unique : plan.sched.order.Nodup) : next.sched.order = plan.sched.order := by
  cases step with
  | @extend req kv pool => exact Scheduler.store_order { plan.sched with pool := pool } _
  | @preempt victim last =>
    rw [Scheduler.order_eq, nodup_append] at unique
    obtain ⟨front, split⟩ := getLast?_eq_some_iff.mp last
    have running : (plan.preempt victim).sched.running = plan.sched.running.dropLast :=
      preempt_running unique.1 last
    have waiting : (plan.preempt victim).sched.waiting =
        victim.preempted (plan.sched.pool.freeState victim.kv).1 :: plan.sched.waiting := by
      change (plan.sched.preempt victim).waiting = _
      unfold Scheduler.preempt
      dsimp only
      rw [fcfs]
    rw [Scheduler.order_eq, Scheduler.order_eq, running, waiting, split, dropLast_concat]
    simp [Request.preempted]
  | @rehash first rest queue =>
    have same : (lookup plan.sched.pool first).1.id = first.id := by rw [lookup_fields]
    rw [Scheduler.order_eq, Scheduler.order_eq, queue]
    simp [same]
  | @start old first rest hits kv pool nComputed nNew queue =>
    rw [Scheduler.order_eq, Scheduler.order_eq, queue]
    simp [push, Request.admitted]

/-- A request that has been preempted does not run again in the same call. -/
theorem Step.preempted_out (step : Step plan next)
    (gone : ∀ id ∈ plan.out.preempted, id ∉ plan.sched.running.map Request.id) :
    ∀ id ∈ next.out.preempted, id ∉ next.sched.running.map Request.id := by
  intro id member inside
  cases step with
  | @extend req kv pool =>
    change id ∈ (Keyed.replace Request.id _ plan.sched.running).map Request.id at inside
    rw [Keyed.replace_keys] at inside
    exact gone id member inside
  | @preempt victim last =>
    have running : (plan.preempt victim).sched.running = _ :=
      Scheduler.preempt_running plan.sched victim
    rw [running] at inside
    obtain ⟨r, there, same⟩ := mem_map.mp inside
    obtain ⟨kept, different⟩ := Keyed.mem_remove.mp there
    rcases mem_append.mp member with old | new
    · exact gone id old (mem_map.mpr ⟨r, kept, same⟩)
    · exact different (same.trans (mem_singleton.mp new))
  | rehash queue => exact gone id member inside
  | start queue seats none =>
    change id ∈ plan.out.preempted at member
    rw [none] at member
    cases member

end Plan

variable {s : Scheduler M} {e : Engine M}

namespace Scheduler

theorem running_unique (unique : s.order.Nodup) : (s.running.map Request.id).Nodup := by
  rw [order_eq, nodup_append] at unique
  exact unique.1

theorem schedule_order (fcfs : s.cfg.policy = .fcfs) (unique : s.order.Nodup) :
    s.schedule.2.order = s.order := by
  obtain ⟨plan, shape, steps⟩ := s.schedule_steps (running_unique unique)
  have kept : plan.sched.order = s.order ∧ plan.sched.cfg.policy = .fcfs := by
    clear shape
    induction steps with
    | refl => exact ⟨rfl, fcfs⟩
    | tail _ step ih =>
      refine ⟨(step.order ih.2 (by rw [ih.1]; exact unique)).trans ih.1, ?_⟩
      rw [step.cfg]
      exact ih.2
  rw [shape]
  exact kept.1

theorem schedule_gone (unique : s.order.Nodup) :
    ∀ id ∈ s.schedule.1.preempted, id ∉ s.schedule.2.running.map Request.id := by
  obtain ⟨plan, shape, steps⟩ := s.schedule_steps (running_unique unique)
  rw [shape]
  clear shape
  induction steps with
  | refl => simp
  | tail _ step ih => exact step.preempted_out ih

/-- Everything behind a preempted request waits. -/
theorem schedule_preempted_last (fcfs : s.cfg.policy = .fcfs) (unique : s.order.Nodup)
    {front back : List Nat} {id : Nat} (split : s.order = front ++ id :: back)
    (preempted : id ∈ s.schedule.1.preempted) :
    ∀ later ∈ back, later ∉ s.schedule.2.running.map Request.id := by
  have order := schedule_order fcfs unique
  have absent := schedule_gone unique id preempted
  intro later behind running
  rw [split, order_eq] at order
  -- `running_` is a leading part of the order, and it ends before the preempted request
  have ahead : s.schedule.2.running.map Request.id <+: front := by
    rcases prefix_or_prefix_of_prefix (prefix_append _ _)
      (order ▸ prefix_append front (id :: back)) with inside | ⟨more, longer⟩
    · exact inside
    cases more with
    | nil => exact ⟨[], by rw [← longer]; simp⟩
    | cons head more =>
      rw [← longer, append_assoc, append_cancel_left_eq] at order
      have same : head = id := (List.cons.inj order).1
      exact (absent (by rw [← longer, same]; simp)).elim
  rw [split, nodup_append] at unique
  exact unique.2.2 later (ahead.subset running) later (mem_cons_of_mem _ behind) rfl

theorem updateAfterStep_order (entries : List ScheduledRequest) (s : Scheduler M) :
    (s.updateAfterStep entries).order = s.order := by
  obtain ⟨_, waiting, running⟩ := updateAfterStep_frame entries s
  rw [order_eq, order_eq, waiting, running]

theorem addRequest_order (fcfs : s.cfg.policy = .fcfs) (r : Request M) :
    (s.addRequest r).order = s.order ++ [r.id] ∧ (s.addRequest r).cfg.policy = .fcfs := by
  unfold addRequest
  rw [fcfs, order_eq, order_eq]
  exact ⟨by simp, fcfs⟩

theorem addRequests_order (fresh : List (Request M)) (fcfs : s.cfg.policy = .fcfs) :
    (fresh.foldl addRequest s).order = s.order ++ fresh.map Request.id := by
  induction fresh generalizing s with
  | nil => rw [foldl_nil, map_nil, append_nil]
  | cons r fresh ih =>
    obtain ⟨order, still⟩ := addRequest_order fcfs r
    rw [foldl_cons, ih still, order, append_assoc]
    rfl

end Scheduler

namespace Engine

/-- Requests have left the engine, and the others have kept their order. -/
def Thins (e next : Engine M) : Prop :=
  e.sched.order.Nodup → ∃ gone, next.done.map Request.id = e.done.map Request.id ++ gone ∧
    next.sched.order = e.sched.order.filter (· ∉ gone)

theorem thins_same {next : Engine M} (done : next.done = e.done)
    (order : next.sched.order = e.sched.order) : Thins e next :=
  fun _ => ⟨[], by rw [done, append_nil], by rw [order]; simp⟩

theorem Thins.trans {middle next : Engine M} (first : Thins e middle) (second : Thins middle next) :
    Thins e next := by
  intro unique
  obtain ⟨gone, done, order⟩ := first unique
  obtain ⟨more, doneMore, orderMore⟩ := second (by rw [order]; exact unique.filter _)
  refine ⟨gone ++ more, by rw [doneMore, done, append_assoc], ?_⟩
  rw [orderMore, order, filter_filter]
  apply filter_congr
  intro id _
  simp only [mem_append, not_or, Bool.decide_and, Bool.and_comm]

theorem finish_thins (e : Engine M) (r : Request M) (status : RequestStatus) (why : FinishReason)
    (error : String) : Thins e (e.finish r status why error) := by
  intro unique
  unfold finish
  split
  · exact ⟨[], by simp, by simp⟩
  rw [Scheduler.finishRequest_eq unique]
  refine ⟨[r.id], by simp [Request.close], ?_⟩
  rw [Scheduler.order_eq, Scheduler.order_eq, filter_append]
  simp only [Keyed.remove, filter_map, mem_singleton]
  rfl

theorem thins_frame : Frame (Thins (M := M)) :=
  .of (fun _ => thins_same rfl rfl) Thins.trans (fun _ _ => thins_same rfl rfl)
    (fun e r => thins_same rfl (e.sched.store_order r)) finish_thins

/-- The scheduler never changes its configuration. -/
theorem schedCfg_frame : Frame (fun e next : Engine M => next.sched.cfg = e.sched.cfg) := by
  refine .of (fun _ => rfl) (fun first second => second.trans first) (fun _ _ => rfl)
    (fun _ _ => rfl) ?_
  intro e r status why error
  unfold finish
  split
  · rfl
  · unfold Scheduler.finishRequest
    dsimp only
    split <;> rfl

end Engine

theorem Scheduler.schedule_cfg (unique : s.order.Nodup) : s.schedule.2.cfg = s.cfg := by
  obtain ⟨plan, shape, steps⟩ := s.schedule_steps (running_unique unique)
  rw [shape]
  clear shape
  induction steps with
  | refl => rfl
  | tail _ step ih => exact step.cfg.trans ih

namespace Engine

theorem step_schedCfg (e : Engine M) (unique : e.ingest.sched.order.Nodup) (input : StepInput) :
    (handle (e.step input)).sched.cfg = e.sched.cfg := by
  have taken : e.taken.sched.cfg = e.sched.cfg := by rw [taken_fields]
  have aborted : e.ingest.sched.cfg = e.taken.sched.cfg := schedCfg_frame.aborts e
  have body : (e.ingest.stepBody input).1.sched.cfg = e.ingest.sched.cfg :=
    schedCfg_frame.stepBody input (Scheduler.schedule_cfg unique)
      (fun _ entries => (Scheduler.updateAfterStep_frame entries _).1)
  have handled : (handle (e.step input)).sched.cfg = (e.step input).1.sched.cfg :=
    schedCfg_frame.handle (fun _ => rfl) _
  exact handled.trans (body.trans (aborted.trans taken))

theorem run_schedCfg (M : Model) (cfg : EngineConfig) (actions : List Action) :
    (run M cfg actions).sched.cfg = cfg.sched := by
  induction actions using List.reverseRecOn with
  | nil => rfl
  | append_singleton actions action ih =>
    rw [run_concat, ← ih]
    rcases (run M cfg actions).act_cases action with ⟨input, _, _, stepped⟩ | ⟨_, idle⟩
    · rw [stepped]
      exact step_schedCfg _ (run_invariant M cfg actions).ingest.1.sched.unique input
    · rw [idle.sched]

theorem run_ingest_schedCfg (M : Model) (cfg : EngineConfig) (actions : List Action) :
    (run M cfg actions).ingest.sched.cfg = cfg.sched := by
  have aborted : (run M cfg actions).ingest.sched.cfg = (run M cfg actions).taken.sched.cfg :=
    schedCfg_frame.aborts _
  rw [aborted, taken_fields]
  exact run_schedCfg M cfg actions

/-- A small pool: two requests do not fit it until their context is full. -/
def pressedConfig (policy : SchedulingPolicy) : EngineConfig where
  maxModelLen := 4
  blockSize := 1
  blockSize_pos := Nat.one_pos
  numBlocks := 4
  enablePrefixCaching := false
  sched := { maxNumBatchedTokens := 2, maxModelLen := 4, policy := policy }

/-- The third step of this run finds no block for the first request. -/
def pressedRun : List Action :=
  [.submit [7] {} { priority := 1 }, .submit [8] {} { priority := 5 }, .step {}, .step {}]

/-- The ids of the requests an action of the run ingests. -/
def Action.ingests (e : Engine M) : Action → List Nat
  | .step _ => if e.crashed then [] else e.newRequests.map Request.id
  | _ => []

theorem Thins.step {service : Service M} {known : Registration → Prop}
    (inv : e.Invariant service known) (fcfs : e.sched.cfg.policy = .fcfs) (input : StepInput) :
    Thins e.taken (handle (e.step input)) := by
  have unique := inv.ingest.1.sched.unique
  have aborted : e.ingest.sched.cfg = e.taken.sched.cfg := schedCfg_frame.aborts e
  have taken : e.taken.sched.cfg = e.sched.cfg := by rw [taken_fields]
  have still : e.ingest.sched.cfg.policy = .fcfs := by rw [aborted, taken, fcfs]
  refine (thins_frame.aborts e).trans (.trans ?_ (thins_frame.handle (fun _ => thins_same rfl rfl) _))
  exact thins_frame.stepBody input (thins_same rfl (Scheduler.schedule_order still unique))
    (fun _ entries => thins_same rfl (Scheduler.updateAfterStep_order entries _))

/-- FCFS order is preserved: the list changes only by appending the requests that are
ingested and removing those that have finished, `schedule` keeps it, and behind a request
it preempts nothing goes on running. -/
theorem run_order (M : Model) (cfg : EngineConfig) (fcfs : cfg.sched.policy = .fcfs)
    (actions : List Action) (action : Action) :
    (∃ gone, (run M cfg (actions ++ [action])).done.map Request.id =
        (run M cfg actions).done.map Request.id ++ gone ∧
      (run M cfg (actions ++ [action])).sched.order =
        ((run M cfg actions).sched.order ++ action.ingests (run M cfg actions)).filter (· ∉ gone)) ∧
    (run M cfg actions).ingest.sched.schedule.2.order = (run M cfg actions).ingest.sched.order ∧
    ∀ front id back, (run M cfg actions).ingest.sched.order = front ++ id :: back →
      id ∈ (run M cfg actions).ingest.sched.schedule.1.preempted →
      ∀ later ∈ back,
        later ∉ (run M cfg actions).ingest.sched.schedule.2.running.map Request.id := by
  have inv := run_invariant M cfg actions
  have policy : (run M cfg actions).sched.cfg.policy = .fcfs := by rw [run_schedCfg, fcfs]
  have unique := inv.ingest.1.sched.unique
  have ingested : (run M cfg actions).ingest.sched.cfg.policy = .fcfs := by
    rw [run_ingest_schedCfg, fcfs]
  refine ⟨?_, Scheduler.schedule_order ingested unique, ?_⟩
  · rw [run_concat]
    generalize run M cfg actions = e at inv policy ⊢
    rcases e.act_cases action with ⟨input, rfl, alive, stepped⟩ | ⟨dead, idle⟩
    · have joined : e.taken.sched.order = e.sched.order ++ e.newRequests.map Request.id :=
        Scheduler.addRequests_order _ policy
      obtain ⟨gone, done, order⟩ := Thins.step inv policy input inv.taken.sched.unique
      rw [stepped]
      refine ⟨gone, done, ?_⟩
      rw [order, joined, Action.ingests, alive, if_neg (by decide)]
    · refine ⟨[], by rw [idle.done, append_nil], ?_⟩
      have none : action.ingests e = [] := by
        cases action with
        | step input => rw [Action.ingests, dead input rfl, if_pos rfl]
        | _ => rfl
      rw [idle.sched, none, append_nil, filter_eq_self.mpr (by simp)]
  · intro front id back split preempted
    exact Scheduler.schedule_preempted_last ingested unique split preempted

end Engine

namespace Engine

theorem run_order_pressed :
    let e := run Model.counting (pressedConfig .fcfs) pressedRun
    e.ingest.sched.schedule.1.preempted = [2] ∧ e.ingest.sched.order = [1, 2] ∧
      e.ingest.sched.schedule.2.order = e.ingest.sched.order :=
  ⟨by decide +kernel, by decide +kernel,
    (run_order Model.counting (pressedConfig .fcfs) rfl pressedRun (.step {})).2.1⟩

end Engine

namespace Plan

/-- The preemptions of `allocateRunning` in order, each with `running_` at that moment. -/
def allocateVictims (req : Request M) (nTotalTokens : Nat) :
    Nat → Plan M → List (Request M × List (Request M))
  | 0, _ => []
  | turns + 1, plan =>
    match plan.sched.pool.allocateSlots req.kv nTotalTokens [] with
    | (true, _, _) => []
    | (false, _, _) =>
      match plan.sched.running.getLast? with
      | none => []
      | some victim =>
        if victim.id = req.id then [(req, plan.sched.running)]
        else (victim, plan.sched.running) :: allocateVictims req nTotalTokens turns
          ((plan.refund victim.id).preempt victim)

/-- The preemptions of phase 1. -/
def runningVictims : Nat → Nat → Plan M → List (Request M × List (Request M))
  | 0, _, _ => []
  | turns + 1, index, plan =>
    match plan.sched.running[index]? with
    | none => []
    | some req =>
      if plan.budget = 0 then []
      else
        let nNew := wanted plan.sched.cfg plan.budget req req.numComputedTokens
        if nNew = 0 then runningVictims turns (index + 1) plan
        else
          let nSpec := wantedSpec plan.sched.cfg plan.budget req nNew
          let nNew := nNew + nSpec
          let victims := allocateVictims req (req.numComputedTokens + nNew)
            plan.sched.running.length plan
          match allocateRunning req (req.numComputedTokens + nNew)
              plan.sched.running.length plan with
          | (_, false) => victims
          | (plan, true) =>
            victims ++ runningVictims turns (index + 1) (plan.push plan.sched
              { req := req.id, nNewTokens := nNew, nSpec := nSpec, resumed := false })

end Plan

/-- The preemptions of a call of `schedule`, which all happen in phase 1. -/
def Scheduler.victims (s : Scheduler M) : List (Request M × List (Request M)) :=
  Plan.runningVictims s.running.length 0 { sched := s, budget := s.cfg.maxNumBatchedTokens }

namespace Plan

theorem refund_preempted (plan : Plan M) (id : Nat) :
    (plan.refund id).out.preempted = plan.out.preempted := by
  unfold refund
  split <;> rfl

theorem allocateRunning_preempted (req : Request M) (nTotalTokens turns : Nat) (plan : Plan M) :
    (allocateRunning req nTotalTokens turns plan).1.out.preempted = plan.out.preempted ++
      (allocateVictims req nTotalTokens turns plan).map (fun entry => entry.1.id) := by
  induction turns generalizing plan with
  | zero => simp [allocateRunning, allocateVictims]
  | succ turns ih =>
    rw [allocateRunning, allocateVictims]
    generalize plan.sched.pool.allocateSlots req.kv nTotalTokens [] = result
    obtain ⟨enough, kv, pool⟩ := result
    cases enough with
    | true => simp
    | false =>
      cases plan.sched.running.getLast? with
      | none => simp
      | some victim =>
        dsimp only
        split
        · rfl
        · rw [ih]
          simp [preempt, refund_preempted]

theorem scheduleRunning_preempted (turns index : Nat) (plan : Plan M) :
    (scheduleRunning turns index plan).out.preempted = plan.out.preempted ++
      (runningVictims turns index plan).map (fun entry => entry.1.id) := by
  induction turns generalizing index plan with
  | zero => simp [scheduleRunning, runningVictims]
  | succ turns ih =>
    rw [scheduleRunning, runningVictims]
    cases plan.sched.running[index]? with
    | none => simp
    | some req =>
      dsimp only
      by_cases spent : plan.budget = 0
      · rw [if_pos spent, if_pos spent, map_nil, append_nil]
      rw [if_neg spent, if_neg spent]
      generalize wanted plan.sched.cfg plan.budget req req.numComputedTokens = nNew
      generalize wantedSpec plan.sched.cfg plan.budget req nNew = nSpec
      by_cases none : nNew = 0
      · rw [if_pos none, if_pos none]
        exact ih _ _
      rw [if_neg none, if_neg none]
      have first := allocateRunning_preempted req (req.numComputedTokens + (nNew + nSpec))
        plan.sched.running.length plan
      generalize allocateRunning req (req.numComputedTokens + (nNew + nSpec))
        plan.sched.running.length plan = result at first ⊢
      obtain ⟨next, allocated⟩ := result
      cases allocated with
      | false => exact first
      | true =>
        dsimp only at first ⊢
        rw [ih, map_append, ← append_assoc, ← first]
        rfl

theorem scheduleWaiting_preempted (queue : List (Request M)) (plan : Plan M) :
    (scheduleWaiting queue plan).out.preempted = plan.out.preempted := by
  induction queue generalizing plan with
  | nil => rfl
  | cons first rest ih =>
    rw [scheduleWaiting]
    dsimp only
    split
    · rfl
    split
    · rfl
    split
    · rfl
    split
    · rfl
    · rw [ih]
      rfl

end Plan

theorem Scheduler.victims_preempted (s : Scheduler M) :
    s.victims.map (fun entry => entry.1.id) = s.schedule.1.preempted := by
  have running := Plan.scheduleRunning_preempted s.running.length 0 s.start
  rw [nil_append] at running
  rw [victims, ← running, schedule]
  dsimp only
  split
  · exact (Plan.scheduleWaiting_preempted _ _).symm
  · rfl

namespace Plan

/-- Every victim of the allocation loop is the last running request of its moment. -/
theorem allocateVictims_last {req : Request M} {index : Nat} (nTotalTokens turns : Nat)
    {plan : Plan M} (ordered : plan.Ordered index)
    (found : plan.sched.running[index]? = some req) :
    ∀ entry ∈ allocateVictims req nTotalTokens turns plan,
      entry.2.getLast? = some entry.1 ∧ entry.2 <+: plan.sched.running := by
  induction turns generalizing plan with
  | zero => simp [allocateVictims]
  | succ turns ih =>
    rw [allocateVictims]
    split
    · simp
    split
    · simp
    rename_i victim last
    split
    · rename_i same
      have equal : victim = req := inj_on_of_nodup_map ordered.unique
        (mem_of_getLast? last) (mem_of_getElem? found) same
      intro entry member
      rw [mem_singleton.mp member, ← equal]
      exact ⟨last, prefix_refl _⟩
    · rename_i different
      obtain ⟨_, refund, next, still⟩ := ordered.preempt found last different
      have running : (plan.preempt victim).sched.running = plan.sched.running.dropLast :=
        preempt_running ordered.unique last
      rw [refund]
      intro entry member
      rcases mem_cons.mp member with here | later
      · rw [here]
        exact ⟨last, prefix_refl _⟩
      · obtain ⟨victim, fewer⟩ := ih next still entry later
        rw [running] at fewer
        exact ⟨victim, fewer.trans (List.dropLast_prefix _)⟩

/-- During phase 1 `running_` loses requests at its end only. -/
theorem runningVictims_last (turns : Nat) {index : Nat} {plan : Plan M}
    (ordered : plan.Ordered index) :
    ∀ entry ∈ runningVictims turns index plan, entry.2.getLast? = some entry.1 ∧
      entry.2.map Request.content <+: plan.sched.running.map Request.content := by
  induction turns generalizing index plan with
  | zero => simp [runningVictims]
  | succ turns ih =>
    rw [runningVictims]
    split
    · simp
    rename_i req found
    split
    · simp
    dsimp only
    split
    · apply ih
      refine ⟨ordered.unique, fun entry member => ?_⟩
      obtain ⟨place, low, here⟩ := ordered.earlier entry member
      exact ⟨place, by omega, here⟩
    · generalize wanted plan.sched.cfg plan.budget req req.numComputedTokens = nNew
      generalize wantedSpec plan.sched.cfg plan.budget req nNew = nSpec
      have victims := allocateVictims_last (req.numComputedTokens + (nNew + nSpec))
        plan.sched.running.length ordered found
      have here : ∀ entry ∈ allocateVictims req (req.numComputedTokens + (nNew + nSpec))
          plan.sched.running.length plan, entry.2.getLast? = some entry.1 ∧
            entry.2.map Request.content <+: plan.sched.running.map Request.content :=
        fun entry member => ⟨(victims entry member).1, (victims entry member).2.map _⟩
      rcases allocateRunning_steps (req.numComputedTokens + (nNew + nSpec))
          plan.sched.running.length ordered found with ⟨next, shape, _⟩ |
        ⟨middle, kv, pool, shape, _, placed, there, _, _, fewer, _⟩
      · rw [shape]
        exact here
      rw [shape]
      intro entry member
      rcases mem_append.mp member with now | later
      · exact here entry now
      obtain ⟨last, front⟩ := ih (placed.extend there pool kv rfl) entry later
      refine ⟨last, front.trans ?_⟩
      have kept : (({ middle.sched with pool := pool }.store
          { req with kv := kv }).running).map Request.content =
            middle.sched.running.map Request.content := by
        refine Keyed.replace_map ?_
        intro old inside same
        rw [inj_on_of_nodup_map placed.unique inside (mem_of_getElem? there) same]
        rfl
      exact kept ▸ fewer.map _

end Plan

theorem Scheduler.victims_last (unique : s.order.Nodup) :
    ∀ entry ∈ s.victims, entry.2.getLast? = some entry.1 ∧
      entry.2.map Request.content <+: s.running.map Request.content :=
  Plan.runningVictims_last s.running.length ⟨running_unique unique, by simp⟩

/-- `running_` is in the order of the pairs of priority and arrival. -/
def Scheduler.Ranked (s : Scheduler M) : Prop :=
  s.running.Pairwise (fun first second => before second first = false)

/-- In a list that is in order the last request has the largest pair. -/
theorem Scheduler.Ranked.victim (ranked : s.Ranked) (unique : s.order.Nodup) {victim : Request M}
    {running : List (Request M)} (member : (victim, running) ∈ s.victims) :
    victim ∈ running ∧ ∀ r ∈ running, before victim r = false := by
  obtain ⟨last, front⟩ := victims_last unique _ member
  refine ⟨mem_of_getLast? last, ?_⟩
  have here : running.Pairwise (fun first second => before second first = false) := by
    have all : (s.running.map Request.content).Pairwise
        (fun first second => before second first = false) := pairwise_map.mpr ranked
    exact pairwise_map.mp (all.sublist front.sublist)
  obtain ⟨earlier, split⟩ := getLast?_eq_some_iff.mp last
  dsimp only at split
  rw [split, pairwise_append] at here
  intro r inside
  rw [split] at inside
  rcases mem_append.mp inside with old | same
  · exact here.2.2 r old victim mem_cons_self
  · rw [mem_singleton.mp same]
    simp [before]

namespace Engine

/-- When `running_` is in the order of the pairs of priority and arrival, every request that
`schedule` preempts has the largest pair among those running at that moment. -/
theorem run_victims (M : Model) (cfg : EngineConfig) (actions : List Action)
    (ranked : (run M cfg actions).ingest.sched.Ranked) :
    (run M cfg actions).ingest.sched.victims.map (fun entry => entry.1.id) =
        (run M cfg actions).ingest.sched.schedule.1.preempted ∧
      ∀ victim running, (victim, running) ∈ (run M cfg actions).ingest.sched.victims →
        victim ∈ running ∧ ∀ r ∈ running, Scheduler.before victim r = false :=
  ⟨Scheduler.victims_preempted _, fun _ _ member =>
    ranked.victim (run_invariant M cfg actions).ingest.1.sched.unique member⟩

theorem run_victims_pressed :
    let s := (run Model.counting (pressedConfig .priority) pressedRun).ingest.sched
    s.schedule.1.preempted = [2] ∧ ∀ victim running, (victim, running) ∈ s.victims →
      victim ∈ running ∧ ∀ r ∈ running, Scheduler.before victim r = false := by
  have ranked : (run Model.counting (pressedConfig .priority) pressedRun).ingest.sched.Ranked := by
    unfold Scheduler.Ranked
    decide +kernel
  exact ⟨by decide +kernel, (run_victims Model.counting (pressedConfig .priority) pressedRun ranked).2⟩

/-- A request of low priority that was admitted first outlasts one of high priority. -/
theorem run_victims_inverted :
    let s := (run Model.counting (pressedConfig .priority)
      [.submit [7] {} { priority := 5 }, .step {}, .submit [8] {} { priority := 1 },
        .step {}]).ingest.sched
    ∃ entry ∈ s.victims, entry.1.id = 2 ∧ ∃ r ∈ entry.2, Scheduler.before entry.1 r = true := by
  decide +kernel

end Engine

end Iian
