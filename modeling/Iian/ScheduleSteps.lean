import Iian.Scheduler
import Mathlib.Logic.Relation

/- What a call of `schedule` does, one step at a time: blocks for a running request, a
preemption, the hashes of a waiting request and an admission. Everything about schedules is
derived from these four steps. -/
namespace Iian

open List Lib

variable {M : Model}

variable {plan : Plan M} {index : Nat} {req : Request M}

namespace Plan

inductive Step : Plan M → Plan M → Prop
  | extend {plan : Plan M} {req : Request M} {kv : KVRequestState} {pool : BlockPool}
      {nNew nSpec : Nat} (member : req ∈ plan.sched.running)
      (absent : ∀ entry ∈ plan.out.scheduled, entry.req ≠ req.id)
      (amount : nNew = wanted plan.sched.cfg plan.budget req req.numComputedTokens)
      (positive : 0 < nNew) (drafts : nSpec = wantedSpec plan.sched.cfg plan.budget req nNew)
      (allocated : plan.sched.pool.allocateSlots req.kv (req.numComputedTokens + (nNew + nSpec)) [] =
        (true, kv, pool)) :
      Step plan (plan.push ({ plan.sched with pool := pool }.store { req with kv := kv })
        { req := req.id, nNewTokens := nNew + nSpec, nSpec := nSpec, resumed := false })
  | preempt {plan : Plan M} {victim : Request M}
      (last : plan.sched.running.getLast? = some victim)
      (absent : ∀ entry ∈ plan.out.scheduled, entry.req ≠ victim.id) :
      Step plan (plan.preempt victim)
  | rehash {plan : Plan M} {first : Request M} {rest : List (Request M)}
      (queue : plan.sched.waiting = first :: rest) :
      Step plan { plan with
        sched := { plan.sched with waiting := (lookup plan.sched.pool first).1 :: rest } }
  | start {plan : Plan M} {old first : Request M} {rest : List (Request M)} {hits : List Nat}
      {kv : KVRequestState} {pool : BlockPool} {nComputed nNew : Nat}
      (queue : plan.sched.waiting = first :: rest)
      (seats : plan.sched.running.length < plan.sched.cfg.maxNumSeqs)
      (preempted : plan.out.preempted = [])
      (found : lookup plan.sched.pool old = (first, hits))
      (computed : nComputed = computedAt plan.sched.pool first hits)
      (amount : nNew = wanted plan.sched.cfg plan.budget first nComputed) (positive : 0 < nNew)
      (whole : plan.sched.cfg.enableChunkedPrefill = false →
        nNew = chunk plan.sched.cfg first nComputed)
      (allocated : plan.sched.pool.allocateSlots first.kv (nComputed + nNew) hits =
        (true, kv, pool)) :
      Step plan (plan.push { plan.sched with
          pool := pool
          waiting := rest
          running := plan.sched.running ++ [first.admitted kv nComputed] }
        { req := first.id, nNewTokens := nNew, resumed := first.status = .preempted })

abbrev Steps : Plan M → Plan M → Prop := Relation.ReflTransGen Step

/-- Phase 1 has scheduled only requests before place `index`. -/
structure Ordered (plan : Plan M) (index : Nat) : Prop where
  unique : (plan.sched.running.map Request.id).Nodup
  earlier : ∀ entry ∈ plan.out.scheduled, ∃ place < index,
    (plan.sched.running.map Request.id)[place]? = some entry.req

theorem Ordered.absent {place : Nat} (ordered : plan.Ordered index)
    (found : plan.sched.running[place]? = some req) (high : index ≤ place) :
    ∀ entry ∈ plan.out.scheduled, entry.req ≠ req.id := by
  intro entry member same
  obtain ⟨early, below, there⟩ := ordered.earlier entry member
  have here : (plan.sched.running.map Request.id)[place]? = some req.id := by
    rw [getElem?_map, found, Option.map_some]
  rw [same, ← here] at there
  have inside : early < (plan.sched.running.map Request.id).length := by
    by_contra outside
    rw [getElem?_eq_none (Nat.le_of_not_lt outside), here] at there
    cases there
  have equal := (getElem?_inj inside ordered.unique).mp there
  omega

/-- The last running request has not been scheduled while one before it, or it itself, is. -/
theorem Ordered.last_absent (ordered : plan.Ordered index) {victim : Request M}
    (found : plan.sched.running[index]? = some req)
    (last : plan.sched.running.getLast? = some victim) :
    ∀ entry ∈ plan.out.scheduled, entry.req ≠ victim.id := by
  have inside := (List.getElem?_eq_some_iff.mp found).1
  rw [getLast?_eq_getElem?] at last
  exact ordered.absent last (by omega)

theorem refund_absent {id : Nat} (absent : ∀ entry ∈ plan.out.scheduled, entry.req ≠ id) :
    plan.refund id = plan := by
  unfold refund
  rw [find?_eq_none.mpr]
  intro entry member
  simpa using absent entry member

theorem preempt_running {s : Scheduler M} {victim : Request M}
    (unique : (s.running.map Request.id).Nodup) (last : s.running.getLast? = some victim) :
    (s.preempt victim).running = s.running.dropLast := by
  have removed := Keyed.remove_getLast unique last
  unfold Scheduler.preempt
  dsimp only [Request.preempted]
  cases s.cfg.policy <;> exact removed

theorem preempt_cfg (s : Scheduler M) (victim : Request M) : (s.preempt victim).cfg = s.cfg := by
  unfold Scheduler.preempt
  cases policy : s.cfg.policy <;> simp [policy]

/-- The preemption of the last running request while an earlier one is being scheduled. -/
theorem Ordered.preempt {plan : Plan M} {index : Nat} (ordered : plan.Ordered index)
    {req victim : Request M} (found : plan.sched.running[index]? = some req)
    (last : plan.sched.running.getLast? = some victim) (other : victim.id ≠ req.id) :
    Step plan (plan.preempt victim) ∧ plan.refund victim.id = plan ∧
      (plan.preempt victim).Ordered index ∧
      (plan.preempt victim).sched.running[index]? = some req := by
  have running : (plan.preempt victim).sched.running = plan.sched.running.dropLast :=
    preempt_running ordered.unique last
  have inside := (List.getElem?_eq_some_iff.mp found).1
  have lastPlace := last
  rw [getLast?_eq_getElem?] at lastPlace
  have before : index < plan.sched.running.length - 1 := by
    by_contra outside
    have same : plan.sched.running.length - 1 = index := by omega
    rw [same, found] at lastPlace
    exact other (congrArg Request.id (Option.some.inj lastPlace)).symm
  have absent := ordered.last_absent found last
  have kept : ∀ place, place ≤ index →
      plan.sched.running.dropLast[place]? = plan.sched.running[place]? := by
    intro place low
    rw [getElem?_dropLast, if_pos (by omega)]
  refine ⟨.preempt last absent, refund_absent absent, ⟨?_, ?_⟩, ?_⟩
  · rw [running]
    exact ordered.unique.sublist ((dropLast_sublist _).map _)
  · intro entry member
    obtain ⟨place, low, here⟩ := ordered.earlier entry member
    refine ⟨place, low, ?_⟩
    rw [running, getElem?_map, kept place (by omega), ← getElem?_map]
    exact here
  · rw [running, kept index (Nat.le_refl _)]
    exact found

/-- The allocation loop preempts from the back, and ends with blocks for `req` or with the
preemption of `req` itself. -/
theorem allocateRunning_steps (nTotalTokens turns : Nat) (ordered : plan.Ordered index)
    (found : plan.sched.running[index]? = some req) :
    (∃ next, allocateRunning req nTotalTokens turns plan = (next, false) ∧ Steps plan next) ∨
    ∃ middle kv pool,
      allocateRunning req nTotalTokens turns plan =
        ({ middle with sched := { middle.sched with pool := pool }.store { req with kv := kv } },
          true) ∧
      Steps plan middle ∧ middle.Ordered index ∧ middle.sched.running[index]? = some req ∧
      middle.budget = plan.budget ∧ middle.sched.cfg = plan.sched.cfg ∧
      middle.sched.running <+: plan.sched.running ∧
      middle.sched.pool.allocateSlots req.kv nTotalTokens [] = (true, kv, pool) := by
  induction turns generalizing plan with
  | zero => exact .inl ⟨plan, rfl, .refl⟩
  | succ turns ih =>
    rw [allocateRunning]
    split
    · rename_i kv pool allocated
      exact .inr ⟨plan, kv, pool, rfl, .refl, ordered, found, rfl, rfl, prefix_refl _, allocated⟩
    split
    · exact .inl ⟨plan, rfl, .refl⟩
    rename_i victim last
    by_cases same : victim.id = req.id
    · rw [if_pos same]
      have equal : victim = req := inj_on_of_nodup_map ordered.unique
        (mem_of_getLast? last) (mem_of_getElem? found) same
      rw [equal] at last
      exact .inl ⟨_, rfl, .single (.preempt last (ordered.absent found (Nat.le_refl _)))⟩
    · rw [if_neg same]
      obtain ⟨step, refund, next, still⟩ := ordered.preempt found last same
      rw [refund]
      rcases ih next still with ⟨final, shape, steps⟩ |
        ⟨middle, kv, pool, shape, steps, placed, there, budget, cfg, fewer, allocated⟩
      · exact .inl ⟨final, shape, .head step steps⟩
      have running : (plan.preempt victim).sched.running = plan.sched.running.dropLast :=
        preempt_running ordered.unique last
      rw [running] at fewer
      refine .inr ⟨middle, kv, pool, shape, .head step steps, placed, there, budget, ?_,
        fewer.trans (List.dropLast_prefix _), allocated⟩
      rw [cfg]
      exact preempt_cfg plan.sched victim

theorem Ordered.extend {plan : Plan M} {index : Nat} (ordered : plan.Ordered index)
    {req : Request M} (found : plan.sched.running[index]? = some req) (pool : BlockPool)
    (kv : KVRequestState) {entry : ScheduledRequest} (handle : entry.req = req.id) :
    (plan.push ({ plan.sched with pool := pool }.store { req with kv := kv }) entry).Ordered
      (index + 1) := by
  have ids : ({ plan.sched with pool := pool }.store { req with kv := kv }).running.map
      Request.id = plan.sched.running.map Request.id := Keyed.replace_keys _ _
  refine ⟨?_, ?_⟩
  · change (({ plan.sched with pool := pool }.store { req with kv := kv }).running.map
      Request.id).Nodup
    rw [ids]
    exact ordered.unique
  · intro other member
    change ∃ place < index + 1, (({ plan.sched with pool := pool }.store
      { req with kv := kv }).running.map Request.id)[place]? = some other.req
    rw [ids]
    rcases mem_append.mp member with old | new
    · obtain ⟨place, low, here⟩ := ordered.earlier other old
      exact ⟨place, by omega, here⟩
    · rw [mem_singleton.mp new]
      refine ⟨index, by omega, ?_⟩
      rw [getElem?_map, found, Option.map_some, handle]

theorem scheduleRunning_steps (turns : Nat) (ordered : plan.Ordered index) :
    Steps plan (scheduleRunning turns index plan) := by
  induction turns generalizing index plan with
  | zero => exact .refl
  | succ turns ih =>
    rw [scheduleRunning]
    split
    · exact .refl
    rename_i req found
    dsimp only
    split
    · exact .refl
    split
    · apply ih
      refine ⟨ordered.unique, fun entry member => ?_⟩
      obtain ⟨place, low, here⟩ := ordered.earlier entry member
      exact ⟨place, by omega, here⟩
    · rename_i nonzero
      generalize amount : wanted plan.sched.cfg plan.budget req req.numComputedTokens = nNew
        at nonzero ⊢
      generalize drafts : wantedSpec plan.sched.cfg plan.budget req nNew = nSpec
      rcases allocateRunning_steps (req.numComputedTokens + (nNew + nSpec))
          plan.sched.running.length ordered found with
        ⟨next, shape, steps⟩ | ⟨middle, kv, pool, shape, steps, placed, there, budget, cfg, _,
          allocated⟩
      · rw [shape]
        exact steps
      rw [shape]
      have step := Step.extend (mem_of_getElem? there)
        (placed.absent there (Nat.le_refl _)) (by rw [cfg, budget]; exact amount.symm)
        (Nat.pos_of_ne_zero nonzero) (by rw [cfg, budget]; exact drafts.symm) allocated
      exact (steps.tail step).trans (ih (placed.extend there pool kv rfl))

theorem lookup_hits {pool : BlockPool} {old : Request M} {hits : List Nat}
    (found : lookup pool old = (req, hits)) :
    hits = if req.numComputedTokens = 0 then pool.getComputedBlocks req.tokens req.blockHashes
      else [] := by
  unfold lookup at found
  split at found
  · rename_i zero
    cases found
    exact (if_pos zero).symm
  · rename_i positive
    cases found
    exact (if_neg positive).symm

theorem scheduleWaiting_steps (queue : List (Request M)) (waiting : plan.sched.waiting = queue)
    (preempted : plan.out.preempted = []) : Steps plan (scheduleWaiting queue plan) := by
  induction queue generalizing plan with
  | nil => exact .refl
  | cons first rest ih =>
    have rehash := Step.rehash waiting
    rw [scheduleWaiting]
    dsimp only
    split
    · exact .refl
    rename_i room
    obtain ⟨_, seats⟩ := not_or.mp room
    generalize found : lookup plan.sched.pool first = result at rehash ⊢
    obtain ⟨req, hits⟩ := result
    dsimp only at rehash ⊢
    split
    · exact .single rehash
    rename_i fits
    split
    · exact .single rehash
    rename_i nonzero
    split
    · exact .single rehash
    rename_i kv pool allocated
    have whole : plan.sched.cfg.enableChunkedPrefill = false →
        wanted plan.sched.cfg plan.budget req (computedAt plan.sched.pool req hits) =
          chunk plan.sched.cfg req (computedAt plan.sched.pool req hits) := by
      intro unchunked
      exact Nat.min_eq_left (Nat.le_of_not_lt fun less => fits ⟨unchunked, less⟩)
    have step := @Step.start M { plan with
        sched := { plan.sched with waiting := req :: rest } } first req rest hits kv pool
      _ _ rfl (Nat.lt_of_not_le seats) preempted found rfl rfl
      (Nat.pos_of_ne_zero nonzero) whole allocated
    exact ((Relation.ReflTransGen.single rehash).tail step).trans (ih rfl preempted)

end Plan

/-- The plan that `schedule` starts with. -/
abbrev Scheduler.start (s : Scheduler M) : Plan M :=
  { sched := s, budget := s.cfg.maxNumBatchedTokens }

theorem Scheduler.start_ordered {s : Scheduler M} (unique : (s.running.map Request.id).Nodup) :
    s.start.Ordered 0 := ⟨unique, by simp⟩

theorem Scheduler.schedule_steps (s : Scheduler M) (unique : (s.running.map Request.id).Nodup) :
    ∃ plan, s.schedule = (plan.out, plan.sched) ∧
      Plan.Steps s.start plan := by
  have running := Plan.scheduleRunning_steps s.running.length (start_ordered unique)
  refine ⟨_, rfl, ?_⟩
  split
  · rename_i none
    exact running.trans (Plan.scheduleWaiting_steps _ rfl (List.isEmpty_iff.mp none))
  · exact running

end Iian
