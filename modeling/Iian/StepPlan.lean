import Iian.Lifecycle

/- The plan of one step: what it lists, how it uses the token budget, and that the unsigned
subtractions of `schedule` never wrap around.

The last point compares `schedule`, whose natural numbers subtract down to zero, with a copy
of it in which a subtraction that would wrap has no result. -/
namespace Iian

open List Lib

variable {M : Model}

/-- An unsigned subtraction, without a result where it would wrap around. -/
def minus (a b : Nat) : Option Nat := if b ≤ a then some (a - b) else none

@[simp] theorem minus_of_le {a b : Nat} (most : b ≤ a) : minus a b = some (a - b) := if_pos most

namespace Plan

/-- `refund`, with checked subtraction. -/
def refundChecked (plan : Plan M) (id : Nat) : Option (Plan M) :=
  match plan.out.scheduled.find? (fun entry => entry.req = id) with
  | none => some plan
  | some entry => do
    let totalTokens ← minus plan.out.totalTokens entry.nNewTokens
    some { plan with
      budget := plan.budget + entry.nNewTokens
      out := { plan.out with
        totalTokens := totalTokens
        scheduled := plan.out.scheduled.eraseP (fun entry => entry.req = id) } }

/-- `push`, with checked subtraction. -/
def pushChecked (plan : Plan M) (sched : Scheduler M) (entry : ScheduledRequest) :
    Option (Plan M) := do
  let budget ← minus plan.budget entry.nNewTokens
  some {
    sched := sched
    budget := budget
    out := { plan.out with
      scheduled := plan.out.scheduled ++ [entry]
      totalTokens := plan.out.totalTokens + entry.nNewTokens } }

/-- `chunk`, with checked subtraction. -/
def chunkChecked (cfg : SchedulerConfig) (req : Request M) (nComputed : Nat) : Option Nat := do
  let nNew ← minus req.nTokens nComputed
  some (if cfg.longPrefillTokenThreshold > 0 then min nNew cfg.longPrefillTokenThreshold else nNew)

/-- The room of the context behind the window of a step, with checked subtraction. -/
def roomChecked (limit nComputed nNew : Nat) : Option Nat :=
  if limit > nComputed + nNew + 1 then do
    let room ← minus limit nComputed
    let room ← minus room nNew
    minus room 1
  else some 0

/-- `wantedSpec`, with checked subtraction. -/
def wantedSpecChecked (cfg : SchedulerConfig) (budget : Nat) (req : Request M) (nNew : Nat) :
    Option Nat := do
  if req.specTokens.isEmpty then some 0
  else
    let left ← minus req.nTokens req.numComputedTokens
    if nNew ≠ left then some 0
    else
      let nSpec := req.specTokens.length
      let nSpec ← if nNew + nSpec > budget then minus budget nNew else some nSpec
      if req.numComputedTokens + nNew + nSpec + 1 > cfg.maxModelLen then
        let room ← roomChecked cfg.maxModelLen req.numComputedTokens nNew
        some (min nSpec room)
      else some nSpec

/-- `allocateRunning`, with checked subtraction. -/
def allocateRunningChecked (req : Request M) (nTotalTokens : Nat) :
    Nat → Plan M → Option (Plan M × Bool)
  | 0, plan => some (plan, false)
  | turns + 1, plan =>
    match plan.sched.pool.allocateSlots req.kv nTotalTokens [] with
    | (true, kv, pool) => some
        ({ plan with sched := { plan.sched with pool := pool }.store { req with kv := kv } }, true)
    | (false, _, _) =>
      match plan.sched.running.getLast? with
      | none => some (plan, false)
      | some victim =>
        if victim.id = req.id then some (plan.preempt req, false)
        else do
          let plan ← plan.refundChecked victim.id
          allocateRunningChecked req nTotalTokens turns (plan.preempt victim)

/-- `scheduleRunning`, with checked subtraction. -/
def scheduleRunningChecked : Nat → Nat → Plan M → Option (Plan M)
  | 0, _, plan => some plan
  | turns + 1, index, plan =>
    match plan.sched.running[index]? with
    | none => some plan
    | some req =>
      if plan.budget = 0 then some plan
      else do
        let nNew ← chunkChecked plan.sched.cfg req req.numComputedTokens
        let nNew := min nNew plan.budget
        if nNew = 0 then scheduleRunningChecked turns (index + 1) plan
        else
          let nSpec ← wantedSpecChecked plan.sched.cfg plan.budget req nNew
          let nNew := nNew + nSpec
          let (plan, ok) ← allocateRunningChecked req (req.numComputedTokens + nNew)
            plan.sched.running.length plan
          if ok then
            let plan ← plan.pushChecked plan.sched
              { req := req.id, nNewTokens := nNew, nSpec := nSpec, resumed := false }
            scheduleRunningChecked turns (index + 1) plan
          else some plan

/-- `scheduleWaiting`, with checked subtraction. -/
def scheduleWaitingChecked : List (Request M) → Plan M → Option (Plan M)
  | [], plan => some plan
  | first :: rest, plan =>
    let cfg := plan.sched.cfg
    if plan.budget = 0 ∨ cfg.maxNumSeqs ≤ plan.sched.running.length then some plan
    else
      let (req, computedBlocks) := lookup plan.sched.pool first
      let plan := { plan with sched := { plan.sched with waiting := req :: rest } }
      let nComputed := computedAt plan.sched.pool req computedBlocks
      do
        let nNew ← chunkChecked cfg req nComputed
        if cfg.enableChunkedPrefill = false ∧ nNew > plan.budget then some plan
        else
          let nNew := min nNew plan.budget
          if nNew = 0 then some plan
          else
            match plan.sched.pool.allocateSlots req.kv (nComputed + nNew) computedBlocks with
            | (false, _, _) => some plan
            | (true, kv, pool) =>
              let sched := { plan.sched with
                pool := pool
                waiting := rest
                running := plan.sched.running ++ [req.admitted kv nComputed] }
              let plan ← plan.pushChecked sched
                { req := req.id, nNewTokens := nNew, resumed := req.status = .preempted }
              scheduleWaitingChecked rest plan

end Plan

/-- `schedule`, without a result if one of its subtractions wraps around. -/
def Scheduler.scheduleChecked (s : Scheduler M) : Option (SchedulerOutput × Scheduler M) := do
  let plan ← Plan.scheduleRunningChecked s.running.length 0
    { sched := s, budget := s.cfg.maxNumBatchedTokens }
  let plan ← if plan.out.preempted.isEmpty then
    Plan.scheduleWaitingChecked plan.sched.waiting plan else some plan
  some (plan.out, plan.sched)

variable {req : Request M} {plan : Plan M}

namespace Plan

theorem chunkChecked_eq (cfg : SchedulerConfig) {nComputed : Nat} (most : nComputed ≤ req.nTokens) :
    chunkChecked cfg req nComputed = some (chunk cfg req nComputed) := by
  simp [chunkChecked, chunk, most]

theorem wanted_budget (cfg : SchedulerConfig) (budget : Nat) (req : Request M) (nComputed : Nat) :
    wanted cfg budget req nComputed ≤ budget :=
  Nat.min_le_right _ _

variable {cfg : SchedulerConfig} {budget nNew : Nat} {entry : ScheduledRequest} {next : Plan M}
    {index : Nat} {limit : Nat}

theorem wantedSpec_budget {req : Request M} (most : nNew ≤ budget) :
    nNew + wantedSpec cfg budget req nNew ≤ budget := by
  unfold wantedSpec
  dsimp only
  split
  · split <;> split <;> omega
  · omega

/-- Drafts leave room for one more token of the context. -/
theorem wantedSpec_context (positive : 0 < wantedSpec cfg budget req nNew) :
    req.numComputedTokens + (nNew + wantedSpec cfg budget req nNew) + 1 ≤ cfg.maxModelLen := by
  generalize drafts : wantedSpec cfg budget req nNew = nSpec at positive ⊢
  unfold wantedSpec at drafts
  dsimp only at drafts
  split at drafts
  · split at drafts <;> split at drafts <;> (try split at drafts) <;> omega
  · omega

theorem roomChecked_eq (limit nComputed nNew : Nat) : roomChecked limit nComputed nNew =
    some (if limit > nComputed + nNew + 1 then limit - nComputed - nNew - 1 else 0) := by
  unfold roomChecked
  split
  · have first : nComputed ≤ limit := by omega
    have second : nNew ≤ limit - nComputed := by omega
    have third : 1 ≤ limit - nComputed - nNew := by omega
    simp [first, second, third]
  · rfl

theorem wantedSpecChecked_eq (late : req.numComputedTokens ≤ req.nTokens) (most : nNew ≤ budget) :
    wantedSpecChecked cfg budget req nNew = some (wantedSpec cfg budget req nNew) := by
  unfold wantedSpecChecked wantedSpec
  by_cases none : req.specTokens.isEmpty = true
  · simp [none]
  by_cases whole : nNew = req.nTokens - req.numComputedTokens
  · simp only [none, minus_of_le late, ← whole, roomChecked_eq]
    by_cases beyond : nNew + req.specTokens.length > budget
    · by_cases long : req.numComputedTokens + nNew + (budget - nNew) + 1 > cfg.maxModelLen <;>
        simp only [Bool.false_eq_true, ↓reduceIte, ne_eq, gt_iff_lt, beyond, most, minus_of_le,
          Option.bind_eq_bind, Option.bind_some, long, ite_not, and_self]
    · by_cases long : req.numComputedTokens + nNew + req.specTokens.length + 1 > cfg.maxModelLen <;>
        simp only [Bool.false_eq_true, ↓reduceIte, ne_eq, gt_iff_lt, beyond, Option.bind_eq_bind,
          Option.bind_some, long, ite_not, and_self]
  · simp [none, minus_of_le late, whole]

theorem refundChecked_absent {id : Nat} (absent : ∀ entry ∈ plan.out.scheduled, entry.req ≠ id) :
    plan.refundChecked id = some plan := by
  unfold refundChecked
  rw [find?_eq_none.mpr]
  intro entry member
  simpa using absent entry member

/-- The victims stand behind the current request, so nothing is refunded. -/
theorem allocateRunningChecked_eq (nTotalTokens turns : Nat) (ordered : plan.Ordered index)
    (found : plan.sched.running[index]? = some req) :
    allocateRunningChecked req nTotalTokens turns plan =
      some (allocateRunning req nTotalTokens turns plan) := by
  induction turns generalizing plan with
  | zero => rfl
  | succ turns ih =>
    rw [allocateRunningChecked, allocateRunning]
    generalize plan.sched.pool.allocateSlots req.kv nTotalTokens [] = allocated
    obtain ⟨ok, kv, pool⟩ := allocated
    cases ok with
    | true => rfl
    | false =>
      dsimp only
      cases last : plan.sched.running.getLast? with
      | none => rfl
      | some victim =>
        dsimp only
        by_cases same : victim.id = req.id
        · simp [same]
        obtain ⟨_, refund, next, still⟩ := ordered.preempt found last same
        rw [if_neg same, if_neg same, refund,
          refundChecked_absent (ordered.last_absent found last)]
        exact ih next still

theorem pushChecked_eq (plan : Plan M) (sched : Scheduler M)
    (most : entry.nNewTokens ≤ plan.budget) :
    plan.pushChecked sched entry = some (plan.push sched entry) := by
  simp [pushChecked, push, most]

theorem scheduleRunningChecked_eq (turns : Nat) (ordered : plan.Ordered index)
    (due : ∀ r ∈ plan.sched.running, r.Due) :
    scheduleRunningChecked turns index plan = some (scheduleRunning turns index plan) := by
  induction turns generalizing index plan with
  | zero => rfl
  | succ turns ih =>
    rw [scheduleRunningChecked, scheduleRunning]
    cases found : plan.sched.running[index]? with
    | none => rfl
    | some req =>
      dsimp only
      by_cases spent : plan.budget = 0
      · simp [spent]
      have late : req.numComputedTokens ≤ req.nTokens :=
        Nat.le_of_lt (due req (mem_of_getElem? found))
      have most := wanted_budget plan.sched.cfg plan.budget req req.numComputedTokens
      rw [if_neg spent, if_neg spent, chunkChecked_eq _ late, Option.bind_eq_bind, Option.bind_some]
      unfold wanted at most ⊢
      generalize min (chunk plan.sched.cfg req req.numComputedTokens) plan.budget = nNew at most ⊢
      by_cases none : nNew = 0
      · rw [if_pos none, if_pos none]
        refine ih ⟨ordered.unique, fun entry member => ?_⟩ due
        obtain ⟨place, low, here⟩ := ordered.earlier entry member
        exact ⟨place, by omega, here⟩
      rw [if_neg none, if_neg none, wantedSpecChecked_eq late most]
      have fits := @wantedSpec_budget M plan.sched.cfg plan.budget nNew req most
      generalize wantedSpec plan.sched.cfg plan.budget req nNew = nSpec at fits ⊢
      rw [Option.bind_some, allocateRunningChecked_eq _ _ ordered found]
      rcases allocateRunning_steps (req.numComputedTokens + (nNew + nSpec))
          plan.sched.running.length ordered found with
        ⟨next, shape, _⟩ | ⟨middle, kv, pool, shape, _, placed, there, budget, _, fewer, _⟩
      · rw [shape]
        rfl
      rw [shape]
      simp only [Option.bind_eq_bind, Option.bind_some, if_true]
      rw [pushChecked_eq _ _ (by rw [budget]; exact fits), Option.bind_some]
      refine ih (placed.extend there pool kv rfl) ?_
      intro r member
      rcases Scheduler.mem_store.mp member with ⟨old, _⟩ | ⟨new, _⟩
      · exact due r (fewer.subset old)
      · rw [new]
        exact due req (mem_of_getElem? found)

theorem computedAt_le {pool : BlockPool} {old : Request M} {hits : List Nat} (queued : old.Queued)
    (found : lookup pool old = (req, hits)) : computedAt pool req hits ≤ req.nTokens := by
  have fetched := lookup_hits found
  have fields := lookup_fields pool old
  have computed : req.numComputedTokens = 0 := by
    rw [show req = (lookup pool old).1 by rw [found], fields]
    exact queued.computed
  rw [computedAt, if_pos computed, fetched, if_pos computed]
  exact pool.getComputedBlocks_length_le req.tokens req.blockHashes

theorem scheduleWaitingChecked_eq (queue : List (Request M)) (queued : ∀ r ∈ queue, r.Queued) :
    scheduleWaitingChecked queue plan = some (scheduleWaiting queue plan) := by
  induction queue generalizing plan with
  | nil => rfl
  | cons first rest ih =>
    rw [scheduleWaitingChecked, scheduleWaiting]
    dsimp only
    by_cases full : plan.budget = 0 ∨ plan.sched.cfg.maxNumSeqs ≤ plan.sched.running.length
    · rw [if_pos full, if_pos full]
    rw [if_neg full, if_neg full]
    generalize found : lookup plan.sched.pool first = result
    obtain ⟨req, hits⟩ := result
    have late := computedAt_le (queued first mem_cons_self) found
    dsimp only
    generalize computedAt plan.sched.pool req hits = nComputed at late ⊢
    rw [chunkChecked_eq _ late, Option.bind_eq_bind, Option.bind_some]
    by_cases whole : plan.sched.cfg.enableChunkedPrefill = false ∧
        chunk plan.sched.cfg req nComputed > plan.budget
    · rw [if_pos whole, if_pos whole]
    rw [if_neg whole, if_neg whole]
    have most := wanted_budget plan.sched.cfg plan.budget req nComputed
    unfold wanted at most ⊢
    generalize min (chunk plan.sched.cfg req nComputed) plan.budget = nNew at most ⊢
    by_cases none : nNew = 0
    · rw [if_pos none, if_pos none]
    rw [if_neg none, if_neg none]
    generalize plan.sched.pool.allocateSlots req.kv (nComputed + nNew) hits = allocated
    obtain ⟨ok, kv, pool⟩ := allocated
    cases ok with
    | false => rfl
    | true =>
      dsimp only
      rw [pushChecked_eq _ _ most]
      exact ih (fun r member => queued r (mem_cons_of_mem _ member))

/-- The account of the token budget, out of `limit` tokens. -/
structure Accounted (plan : Plan M) (limit : Nat) : Prop where
  total : plan.out.totalTokens = (plan.out.scheduled.map ScheduledRequest.nNewTokens).sum
  budget : plan.budget + plan.out.totalTokens = limit

theorem Accounted.push (accounted : plan.Accounted limit) (sched : Scheduler M)
    (most : entry.nNewTokens ≤ plan.budget) :
    (plan.push sched entry).Accounted limit := by
  have total := accounted.total
  have budget := accounted.budget
  refine ⟨?_, ?_⟩
  · simp [Plan.push, total]
  · simp only [Plan.push]
    omega

theorem Step.accounted (step : Step plan next) (accounted : plan.Accounted limit) :
    next.Accounted limit := by
  cases step with
  | @extend req kv pool nNew nSpec member absent amount positive drafts allocated =>
    apply accounted.push
    rw [drafts]
    exact wantedSpec_budget (by rw [amount]; exact wanted_budget _ _ _ _)
  | preempt last absent => exact ⟨accounted.total, accounted.budget⟩
  | rehash queue => exact ⟨accounted.total, accounted.budget⟩
  | @start old first rest hits kv pool nComputed nNew queue seats preempted found computed amount =>
    apply accounted.push
    change nNew ≤ plan.budget
    rw [amount]
    exact wanted_budget _ _ _ _

/-- Where drafts are listed, the context has room behind them. -/
def Roomy (plan : Plan M) : Prop :=
  ∀ entry ∈ plan.out.scheduled, 0 < entry.nSpec → ∃ r ∈ plan.sched.running, r.id = entry.req ∧
    r.numComputedTokens + entry.nNewTokens + 1 ≤ plan.sched.cfg.maxModelLen

theorem Step.roomy (step : Step plan next) (roomy : plan.Roomy) : next.Roomy := by
  have kept : ∀ entry ∈ plan.out.scheduled, 0 < entry.nSpec → ∃ r ∈ next.sched.running,
      r.id = entry.req ∧
        r.numComputedTokens + entry.nNewTokens + 1 ≤ next.sched.cfg.maxModelLen := by
    intro entry scheduled drafted
    obtain ⟨r, member, handle, room⟩ := roomy entry scheduled drafted
    rw [step.cfg]
    exact ⟨r, step.kept member scheduled handle, handle, room⟩
  cases step with
  | @extend req kv pool nNew nSpec member absent amount positive drafts allocated =>
    intro entry scheduled drafted
    rcases mem_append.mp scheduled with old | new
    · exact kept entry old drafted
    rw [mem_singleton.mp new] at drafted ⊢
    refine ⟨{ req with kv := kv }, mem_map.mpr ⟨req, member, if_pos rfl⟩, rfl, ?_⟩
    change 0 < nSpec at drafted
    rw [drafts] at drafted ⊢
    exact wantedSpec_context drafted
  | preempt last absent => exact kept
  | rehash queue => exact kept
  | start queue =>
    intro entry scheduled drafted
    rcases mem_append.mp scheduled with old | new
    · exact kept entry old drafted
    · rw [mem_singleton.mp new] at drafted
      cases drafted

end Plan

namespace Scheduler

/-- The plan of a step. The requests are those the plan leaves running. -/
structure StepPlan (s : Scheduler M) : Prop where
  once : (s.schedule.1.scheduled.map ScheduledRequest.req).Nodup
  positive : ∀ entry ∈ s.schedule.1.scheduled, 1 ≤ entry.nNewTokens
  total : s.schedule.1.totalTokens = (s.schedule.1.scheduled.map ScheduledRequest.nNewTokens).sum
  budget : s.schedule.1.totalTokens ≤ s.cfg.maxNumBatchedTokens
  kept : ∀ entry ∈ s.schedule.1.scheduled, entry.req ∉ s.schedule.1.preempted
  entries : ∀ entry ∈ s.schedule.1.scheduled, ∃ r, s.schedule.2.find entry.req = some r ∧
    entry.nSpec ≤ entry.nNewTokens ∧ r.numComputedTokens ≤ r.nTokens ∧
    entry.nNewTokens - entry.nSpec ≤ r.nTokens - r.numComputedTokens ∧
    entry.nSpec ≤ r.specTokens.length ∧
    (0 < entry.nSpec → entry.nNewTokens - entry.nSpec = r.nTokens - r.numComputedTokens ∧
      r.numComputedTokens + entry.nNewTokens + 1 ≤ s.cfg.maxModelLen)
  /-- No unsigned subtraction of the call wraps around. -/
  exact : s.scheduleChecked = some s.schedule

variable {s : Scheduler M} {cells : Cells M} {known : Registration → Prop}

theorem Valid.scheduleChecked (valid : s.Valid cells known) (due : ∀ r ∈ s.running, r.Due) :
    s.scheduleChecked = some s.schedule := by
  have ordered := start_ordered valid.running_unique
  unfold Scheduler.scheduleChecked Scheduler.schedule
  rw [Plan.scheduleRunningChecked_eq _ ordered due]
  have steps := Plan.scheduleRunning_steps s.running.length ordered
  generalize Plan.scheduleRunning s.running.length 0 s.start = plan at steps ⊢
  have planned := (valid.steps steps).valid.sched
  dsimp only [Option.bind_eq_bind, Option.bind_some]
  by_cases none : plan.out.preempted.isEmpty = true
  · rw [if_pos none, if_pos none, Plan.scheduleWaitingChecked_eq _ planned.waiting]
    rfl
  · rw [if_neg none, if_neg none]

theorem Valid.stepPlan (valid : s.Valid cells known) (due : ∀ r ∈ s.running, r.Due) :
    s.StepPlan := by
  obtain ⟨plan, shape, steps⟩ := s.schedule_steps valid.running_unique
  have planned := valid.steps steps
  have facts : plan.Accounted s.cfg.maxNumBatchedTokens ∧ plan.Roomy ∧
      ∀ r ∈ plan.sched.running, r.Due := by
    clear shape planned
    induction steps with
    | refl => exact ⟨⟨rfl, rfl⟩, by simp [Plan.Roomy], due⟩
    | tail _ step ih => exact ⟨step.accounted ih.1, step.roomy ih.2.1, step.due ih.2.2⟩
  obtain ⟨accounted, roomy, late⟩ := facts
  have gone := schedule_gone valid.unique
  have exact := valid.scheduleChecked due
  rw [shape] at gone
  refine ⟨?_, ?_, ?_, ?_, ?_, ?_, exact⟩ <;> rw [shape]
  · exact planned.valid.unique
  · intro entry member
    obtain ⟨r, _, _, ready⟩ := planned.valid.ready entry member
    exact Nat.one_le_iff_ne_zero.mpr (Nat.ne_of_gt (Nat.lt_of_le_of_lt (Nat.zero_le _) ready.real))
  · exact accounted.total
  · have budget := accounted.budget
    dsimp only
    omega
  · intro entry member preempted
    obtain ⟨r, running, handle, _⟩ := planned.valid.ready entry member
    exact gone entry.req preempted (mem_map.mpr ⟨r, running, handle⟩)
  · intro entry member
    obtain ⟨r, running, handle, ready⟩ := planned.valid.ready entry member
    have behind : r.numComputedTokens < r.nTokens := late r running
    have real := ready.real
    have tokens := ready.tokens
    refine ⟨r, ?_, Nat.le_of_lt real, Nat.le_of_lt behind, by omega, ready.drafts, ?_⟩
    · rw [← handle]
      exact planned.valid.sched.find running
    intro drafted
    have whole := ready.whole drafted
    obtain ⟨other, there, same, room⟩ := roomy entry member drafted
    have equal : other = r := inj_on_of_nodup_map planned.valid.sched.running_unique there
      running (same.trans handle.symm)
    rw [equal, planned.cfg] at room
    exact ⟨by omega, room⟩

end Scheduler

namespace Engine

/-- Every call of `schedule` in a run that has not crashed makes a correct plan: the state
between steps, and the state behind the ingest in which a step calls it. -/
theorem run_stepPlan (M : Model) (cfg : EngineConfig) (actions : List Action)
    (alive : (run M cfg actions).crashed = false) :
    (run M cfg actions).sched.StepPlan ∧ (run M cfg actions).ingest.sched.StepPlan := by
  have inv := run_invariant M cfg actions
  have due := run_due M cfg actions alive
  exact ⟨inv.sched.stepPlan due,
    inv.ingest.1.sched.stepPlan (fun r member => due r (ingest_subset _ member))⟩

/-- The oldest of two requests takes the blocks of the other. -/
theorem run_stepPlan_pressed :
    (run Model.counting (pressedConfig .fcfs) pressedRun).ingest.sched.StepPlan :=
  (run_stepPlan Model.counting (pressedConfig .fcfs) pressedRun (by decide +kernel)).2

end Engine

end Iian
