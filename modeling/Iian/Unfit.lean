import Iian.Progress

/- The requests that `step` fails because they do not fit, against what `schedule` does with
each of them alone. -/
namespace Iian

open List Lib

variable {M : Model}

variable {r : Request M}

namespace Plan

variable {plan next : Plan M}

/-- Only a preemption empties `running_`. -/
theorem Step.busy (step : Step plan next)
    (busy : plan.out.preempted = [] → plan.sched.running ≠ []) :
    next.out.preempted = [] → next.sched.running ≠ [] := by
  intro none
  cases step with
  | @extend req kv pool =>
    intro empty
    exact busy none (map_eq_nil_iff.mp empty)
  | preempt => exact (append_ne_nil_of_right_ne_nil _ (cons_ne_nil _ _) none).elim
  | rehash => exact busy none
  | start => exact append_ne_nil_of_right_ne_nil _ (cons_ne_nil _ _)

/-- A request that waits and has never run was there before. -/
theorem Step.waits (step : Step plan next) (member : r ∈ next.sched.waiting)
    (status : r.status = .waiting) :
    ∃ old ∈ plan.sched.waiting, old.id = r.id ∧ old.status = .waiting := by
  cases step with
  | extend => exact ⟨r, member, rfl, status⟩
  | @preempt victim =>
    rcases mem_cons.mp ((Scheduler.preempt_waiting plan.sched victim).mem_iff.mp member) with
      here | old
    · rw [here] at status
      cases status
    · exact ⟨r, old, rfl, status⟩
  | @rehash first rest queue =>
    rw [queue]
    rcases mem_cons.mp member with here | old
    · rw [here, lookup_fields] at status
      refine ⟨first, mem_cons_self, ?_, status⟩
      rw [here, lookup_fields]
    · exact ⟨r, mem_cons_of_mem _ old, rfl, status⟩
  | start queue =>
    rw [queue]
    exact ⟨r, mem_cons_of_mem _ member, rfl, status⟩

end Plan

namespace Scheduler

variable {s : Scheduler M}

theorem schedule_waits (unique : s.order.Nodup) (member : r ∈ s.schedule.2.waiting)
    (status : r.status = .waiting) : ∃ old ∈ s.waiting, old.id = r.id ∧ old.status = .waiting := by
  obtain ⟨plan, shape, steps⟩ := s.schedule_steps (running_unique unique)
  rw [shape] at member
  clear shape
  induction steps generalizing r with
  | refl => exact ⟨r, member, rfl, status⟩
  | tail _ step ih =>
    obtain ⟨middle, inside, id, waiting⟩ := step.waits member status
    obtain ⟨old, there, same, first⟩ := ih waiting inside
    exact ⟨old, there, same.trans id, first⟩

theorem schedule_busy (unique : s.order.Nodup) (busy : s.running ≠ [])
    (none : s.schedule.1.preempted = []) : s.schedule.2.running ≠ [] := by
  obtain ⟨plan, shape, steps⟩ := s.schedule_steps (running_unique unique)
  rw [shape] at none ⊢
  have kept : plan.out.preempted = [] → plan.sched.running ≠ [] := by
    clear shape none
    induction steps with
    | refl => exact fun _ => busy
    | tail _ step ih => exact step.busy ih
  exact kept none

/-- The scheduler with `r` as its only request and all blocks free. -/
def alone (s : Scheduler M) (r : Request M) : Scheduler M where
  cfg := s.cfg
  pool := BlockPool.new s.pool.numBlocks s.pool.blockSize s.pool.caching
  waiting := [r]

/-- A request that the budget and the pool would admit without any other request. -/
structure Servable (s : Scheduler M) (r : Request M) : Prop where
  seats : 0 < s.cfg.maxNumSeqs
  budget : 0 < s.cfg.maxNumBatchedTokens
  short : s.cfg.enableChunkedPrefill = false → Plan.chunk s.cfg r 0 ≤ s.cfg.maxNumBatchedTokens
  room : Plan.wanted s.cfg s.cfg.maxNumBatchedTokens r 0 ≤ s.pool.numBlocks * s.pool.blockSize

theorem alone_hits (s : Scheduler M) (r : Request M) : (s.alone r).hitTokens r = 0 := by
  have none : (Plan.lookup (s.alone r).pool r).2 = [] := by
    rw [eq_nil_iff_forall_not_mem]
    intro block member
    have hits := Plan.lookup_hits (Prod.mk.eta (p := Plan.lookup (s.alone r).pool r)).symm
    rw [hits] at member
    split at member
    · refine (BlockPool.new_invariant _ _ _).getComputedBlocks_registered member ?_
      rw [BlockPool.new_block]
    · cases member
  rw [hitTokens, none, length_nil, Nat.zero_mul]

theorem alone_refuses (s : Scheduler M) (r : Request M) : (s.alone r).Refuses r ↔
    s.cfg.enableChunkedPrefill = false ∧ s.cfg.maxNumBatchedTokens < Plan.chunk s.cfg r 0 ∨
      s.pool.numBlocks * s.pool.blockSize < Plan.wanted s.cfg s.cfg.maxNumBatchedTokens r 0 := by
  have blocks : (s.alone r).pool.numBlocks = s.pool.numBlocks := length_replicate
  rw [Refuses, alone_hits, blocks, Nat.zero_add]
  rfl

/-- Alone, a request is scheduled exactly when it is servable. -/
theorem alone_schedule (size : 0 < s.pool.blockSize) (queued : r.Queued) (some : 0 < r.nTokens) :
    (s.alone r).schedule.1.scheduled ≠ [] ↔ s.Servable r := by
  by_cases stopped : s.cfg.maxNumBatchedTokens = 0 ∨ s.cfg.maxNumSeqs = 0
  · have nothing : (s.alone r).schedule.1.scheduled = [] := by
      rw [schedule_idle rfl]
      change (Plan.scheduleWaiting [r] _).out.scheduled = []
      rw [Plan.scheduleWaiting]
      dsimp only
      rw [if_pos (by simpa [alone] using stopped)]
    refine ⟨fun admitted => (admitted nothing).elim, fun servable => ?_⟩
    have seats := servable.seats
    have budget := servable.budget
    omega
  · have head := schedule_head (s := s.alone r) rfl (BlockPool.new_invariant _ _ _) size rfl queued
      some (by change 0 < s.cfg.maxNumSeqs; omega) (by change 0 < s.cfg.maxNumBatchedTokens; omega)
    rw [alone_refuses] at head
    rcases head with ⟨refused, nothing⟩ | ⟨admitted, entry, member, _⟩
    · rw [nothing]
      refine ⟨fun some => (some rfl).elim, fun servable => ?_⟩
      rcases refused with ⟨unchunked, long⟩ | full
      · exact absurd (servable.short unchunked) (Nat.not_le.mpr long)
      · exact absurd servable.room (Nat.not_le.mpr full)
    · refine ⟨fun _ => ⟨by omega, by omega, fun unchunked => ?_, ?_⟩, fun _ => ne_nil_of_mem member⟩
      · exact Nat.le_of_not_lt fun long => admitted (.inl ⟨unchunked, long⟩)
      · exact Nat.le_of_not_lt fun full => admitted (.inr full)

end Scheduler

/-- Nothing runs, the first waiting request is refused, and behind it waits a request that
has never run and would be admitted alone. -/
structure Scheduler.Overtaken (s : Scheduler M) : Prop where
  idle : s.running = []
  refused : ∃ first rest, s.waiting = first :: rest ∧ s.Refuses first
  servable : ∃ r ∈ s.waiting, r.status = .waiting ∧ s.Servable r

namespace Engine

variable {service : Service M} {known : Registration → Prop} {e : Engine M}

/-- Requests that end in their own turn, or by an abort, end without an error. -/
theorem failedWith_frame {text : String} (named : text ≠ "") :
    TurnFrame (fun e next : Engine M => next.failedWith text = e.failedWith text) := by
  refine ⟨fun _ => rfl, fun first second => second.trans first, fun _ _ => rfl, fun _ _ => rfl, ?_⟩
  intro e r status why
  cases going : r.isFinished with
  | true => rw [finish, if_pos going]
  | false => rw [finish_failedWith going, if_neg (Ne.symm named), append_nil]

/-- Every waiting request that the step fails as unfit would not be admitted alone either. -/
def FailsRightly (e : Engine M) (input : StepInput) : Prop :=
  ∀ r ∈ e.ingest.sched.waiting, r.id ∈ (e.step input).1.failedWith unfitError →
    (e.ingest.sched.alone r).schedule.1.scheduled = []

/-- What a step does that fails a waiting request as unfit. -/
theorem Invariant.unfit (inv : e.Invariant service known) {input : StepInput}
    (member : r ∈ e.sched.waiting) (failed : r.id ∈ (e.stepBody input).1.failedWith unfitError) :
    e.sched.running = [] ∧ e.sched.schedule.1.scheduled = [] ∧ r.status = .waiting := by
  have unfailed : r.id ∉ e.failedWith unfitError := by
    intro before
    obtain ⟨ended, inside, same⟩ := mem_map.mp before
    have unique := inv.ids_unique
    rw [map_append, nodup_append] at unique
    refine unique.2.2 r.id ?_ ended.id (mem_map.mpr ⟨ended, mem_of_mem_filter inside, rfl⟩)
      same.symm
    exact mem_map.mpr ⟨r, mem_append_right _ (mem_append_right _ member), rfl⟩
  have planned : e.sched.schedule.2.Valid e.cells known := by
    obtain ⟨plan, shape, scheduled⟩ := inv.sched.schedule
    rw [shape]
    exact scheduled.valid.sched
  rcases e.stepBody_cases input with
    ⟨_, ⟨shape, _⟩ | ⟨unscheduled, shape | ⟨shape, unpreempted⟩⟩⟩ | shape
  · rw [shape] at failed
    exact (unfailed failed).elim
  · rw [shape] at failed
    exact (unfailed failed).elim
  · rw [shape] at failed
    by_cases idle : e.sched.schedule.2.running = []
    · rw [failUnschedulable_idle idle (fun r member =>
        planned.not_finished (mem_append_right _ member))] at failed
      rcases mem_append.mp failed with before | now
      · exact (unfailed before).elim
      obtain ⟨new, chosen, same⟩ := mem_map.mp now
      obtain ⟨inside, waits⟩ := mem_filter.mp chosen
      obtain ⟨old, there, id, status⟩ :=
        Scheduler.schedule_waits inv.sched.unique inside (of_decide_eq_true waits)
      have equal : old = r := inj_on_of_nodup_map inv.sched.unique
        (mem_append_right _ there) (mem_append_right _ member) (id.trans same)
      refine ⟨?_, unscheduled, equal ▸ status⟩
      by_contra busy
      exact Scheduler.schedule_busy inv.sched.unique busy unpreempted idle
    · rw [failUnschedulable_nobody (fun _ _ _ => idle)] at failed
      exact (unfailed failed).elim
  · rw [shape, (failedWith_frame (by decide)).compute _ input (fun _ _ => rfl)] at failed
    exact (unfailed failed).elim

/-- A step fails only requests that would not be served alone, exactly when no request that
is refused keeps such a request waiting. -/
theorem run_unfit (M : Model) (cfg : EngineConfig) (actions : List Action) (input : StepInput) :
    (run M cfg actions).FailsRightly input ↔ ¬ (run M cfg actions).ingest.sched.Overtaken := by
  have inv := (run_invariant M cfg actions).ingest.1
  have size := inv.sched.layout.size
  have sized : ∀ r ∈ (run M cfg actions).ingest.sched.waiting, 0 < r.nTokens := by
    intro r member
    exact (run_sized M cfg actions r ((run_invariant M cfg actions).ingest.2.1 r
      (mem_append_right _ member))).some
  have alone : ∀ r ∈ (run M cfg actions).ingest.sched.waiting,
      (((run M cfg actions).ingest.sched.alone r).schedule.1.scheduled ≠ [] ↔
        (run M cfg actions).ingest.sched.Servable r) :=
    fun r member => Scheduler.alone_schedule size (inv.sched.waiting r member) (sized r member)
  unfold FailsRightly step
  generalize (run M cfg actions).ingest = e at inv size sized alone
  constructor
  · rintro rightly ⟨idle, ⟨first, rest, queue, refused⟩, r, member, waits, servable⟩
    have inside : first ∈ e.sched.waiting := by rw [queue]; exact mem_cons_self
    rcases Scheduler.schedule_head idle (inv.sched.unused idle) size queue
        (inv.sched.waiting first inside) (sized first inside) servable.seats servable.budget with
      ⟨_, nothing⟩ | ⟨admitted, _⟩
    · refine (alone r member).mpr servable (rightly r member ?_)
      rw [stepBody_unschedulable (by rw [Scheduler.hasRequests, queue]; rfl) nothing]
      rw [failUnschedulable_idle (by rw [Scheduler.rehash_fields]; exact idle)
        inv.sched.rehash_going]
      obtain ⟨new, there, same, status⟩ := Scheduler.rehash_mem member
      refine mem_append_right _ (mem_map.mpr ⟨new, mem_filter.mpr ⟨there, ?_⟩, same⟩)
      exact decide_eq_true (status.trans waits)
    · exact admitted refused
  · intro served r member failed
    obtain ⟨idle, unscheduled, waits⟩ := inv.unfit member failed
    by_contra admitted
    have servable := (alone r member).mp admitted
    obtain ⟨first, rest, queue⟩ := exists_cons_of_ne_nil (ne_nil_of_mem member)
    have inside : first ∈ e.sched.waiting := by rw [queue]; exact mem_cons_self
    rcases Scheduler.schedule_head idle (inv.sched.unused idle) size queue
        (inv.sched.waiting first inside) (sized first inside) servable.seats servable.budget with
      ⟨refused, _⟩ | ⟨_, entry, there, _⟩
    · exact served ⟨idle, ⟨first, rest, queue, refused⟩, r, member, waits, servable⟩
    · rw [unscheduled] at there
      cases there

/-- A prompt beyond the budget in front of a short one. -/
def overtakenRun : List Action := [.submit [7, 7, 7] {} {}, .submit [8] {} {}]

/-- Both requests are failed, although the second one fits. -/
theorem run_unfit_overtaken :
    let e := run Model.counting unchunkedConfig overtakenRun
    (e.step {}).1.failedWith unfitError = [1, 2] ∧ ¬ e.FailsRightly {} := by
  unfold FailsRightly
  decide +kernel

end Engine

end Iian
