import Iian.Progress

/- The oldest request under the FCFS policy: every step feeds it, so it ends after as many
steps as it can have tokens. -/
namespace Iian

open List Lib

variable {M : Model}

namespace Plan

variable {plan : Plan M} {cells : Cells M} {known : Registration → Prop} {req : Request M}
    {nTotalTokens : Nat}

/-- What a running request is fed, drafts included, stays within its own tokens or the
context. -/
theorem window_le {cfg : SchedulerConfig} {budget : Nat} (due : req.Due) {nNew nSpec limit : Nat}
    (amount : wanted cfg budget req req.numComputedTokens = nNew)
    (drafts : wantedSpec cfg budget req nNew = nSpec) (tokens : req.nTokens ≤ limit)
    (context : cfg.maxModelLen ≤ limit) :
    req.numComputedTokens + (nNew + nSpec) ≤ limit := by
  have most := wanted_le cfg budget req req.numComputedTokens
  have late : req.numComputedTokens < req.nTokens := due
  unfold wantedSpec at drafts
  dsimp only at drafts
  split at drafts
  · split at drafts <;> split at drafts <;> (try split at drafts) <;> omega
  · omega

/-- The last running request holds all blocks that are in use. -/
theorem fits_alone (valid : plan.sched.Valid cells known) (last : plan.sched.running = [req])
    (room : nTotalTokens ≤ cells.length) :
    ∃ kv pool, plan.sched.pool.allocateSlots req.kv nTotalTokens [] = (true, kv, pool) := by
  have most := valid.layout.linked.numBlocks_le
  rw [valid.tables, last, map_singleton, flatMap_singleton] at most
  change _ ≤ _ + req.kv.blockIds.length at most
  rw [valid.layout.sized, ← ceil_le valid.layout.size] at room
  apply BlockPool.allocateSlots_fits
  have table : BlockPool.baseTable req.kv [] = req.kv.blockIds := by
    rw [BlockPool.baseTable]
    split
    · rename_i empty
      exact (List.isEmpty_iff.mp empty).symm
    · rfl
  rw [table, countP_nil, ite_self]
  omega

/-- While the first running request asks for no more than the pool holds, it gets its blocks. -/
theorem allocateRunning_oldest (turns : Nat) (valid : plan.sched.Valid cells known)
    (unscheduled : plan.out.scheduled = []) (found : plan.sched.running[0]? = some req)
    (room : nTotalTokens ≤ cells.length) (enough : plan.sched.running.length ≤ turns) :
    (allocateRunning req nTotalTokens turns plan).2 = true := by
  induction turns generalizing plan with
  | zero =>
    rw [eq_nil_of_length_eq_zero (Nat.le_zero.mp enough)] at found
    cases found
  | succ turns ih =>
    rw [allocateRunning]
    split
    · rfl
    rename_i failed
    have ordered : plan.Ordered 0 := ⟨valid.running_unique, by simp [unscheduled]⟩
    split
    · rename_i empty
      rw [getLast?_eq_none_iff.mp empty] at found
      cases found
    · rename_i victim last
      split
      · rename_i same
        exfalso
        have equal : victim = req := inj_on_of_nodup_map ordered.unique
          (mem_of_getLast? last) (mem_of_getElem? found) same
        rw [equal] at last
        have single := Keyed.eq_singleton ordered.unique found last
        obtain ⟨_, _, fits⟩ := fits_alone valid single room
        rw [fits] at failed
        cases failed
      · rename_i other
        obtain ⟨step, refund, _, still⟩ := ordered.preempt found last other
        have running : (plan.preempt victim).sched.running = plan.sched.running.dropLast :=
          preempt_running ordered.unique last
        have start : plan.Valid cells known plan.sched.pool.blockSize :=
          ⟨valid, rfl, by simp [unscheduled], by simp [unscheduled]⟩
        rw [refund]
        refine ih (step.valid start).sched unscheduled still ?_
        rw [running, length_dropLast]
        omega

end Plan

variable {entry : ScheduledRequest} {rest : List Nat}

namespace Scheduler

variable {s : Scheduler M} {cells : Cells M} {known : Registration → Prop}

/-- A scheduled request runs, so it has not been preempted. -/
theorem Valid.scheduled_running (valid : s.Valid cells known)
    (member : entry ∈ s.schedule.1.scheduled) :
    entry.req ∈ s.schedule.2.running.map Request.id ∧ entry.req ∉ s.schedule.1.preempted := by
  have runs : entry.req ∈ s.schedule.2.running.map Request.id := by
    obtain ⟨plan, shape, scheduled⟩ := valid.schedule
    rw [shape] at member ⊢
    obtain ⟨r, inside, handle, _⟩ := scheduled.valid.ready entry member
    exact mem_map.mpr ⟨r, inside, handle⟩
  exact ⟨runs, fun preempted => schedule_gone valid.unique _ preempted runs⟩

/-- The oldest request is fed and stays. -/
theorem Valid.schedule_oldest (valid : s.Valid cells known) (due : ∀ r ∈ s.running, r.Due)
    (sized : ∀ r ∈ s.allRequests, 0 < r.nTokens ∧ r.nTokens ≤ cells.length)
    (chunked : s.cfg.enableChunkedPrefill = true) (seats : 0 < s.cfg.maxNumSeqs)
    (budget : 0 < s.cfg.maxNumBatchedTokens) (context : s.cfg.maxModelLen ≤ cells.length) {id : Nat}
    (order : s.order = id :: rest) :
    ∃ entry ∈ s.schedule.1.scheduled, entry.req = id ∧ 0 < entry.nNewTokens := by
  rw [order_eq] at order
  cases queue : s.running with
  | cons first others =>
    have same : first.id = id := by
      rw [queue] at order
      exact (List.cons.inj order).1
    have inside : first ∈ s.running := by rw [queue]; exact mem_cons_self
    obtain ⟨nNew, amount⟩ : ∃ nNew, Plan.wanted s.cfg s.cfg.maxNumBatchedTokens first
      first.numComputedTokens = nNew := ⟨_, rfl⟩
    obtain ⟨nSpec, drafts⟩ : ∃ nSpec, Plan.wantedSpec s.cfg s.cfg.maxNumBatchedTokens first
      nNew = nSpec := ⟨_, rfl⟩
    have window := Plan.window_le (due first inside) amount drafts
      (sized first (mem_append_left _ inside)).2 context
    have allocated := @Plan.allocateRunning_oldest M s.start cells known first _ s.running.length
      valid rfl (by rw [queue]; rfl) window (Nat.le_refl _)
    obtain ⟨entry, member, handle, positive⟩ :=
      (schedule_first valid.unique queue (due first inside) budget amount drafts).1 allocated
    exact ⟨entry, member, handle.trans same, positive⟩
  | nil =>
    rw [queue, map_nil, nil_append] at order
    obtain ⟨first, others, waiting, same, _⟩ := map_eq_cons_iff.mp order
    have inside : first ∈ s.waiting := by rw [waiting]; exact mem_cons_self
    have queued := valid.waiting first inside
    obtain ⟨some, most⟩ := sized first (mem_append_right _ inside)
    rcases schedule_head queue (valid.unused queue) valid.layout.size waiting queued some seats
        budget with ⟨refused, _⟩ | ⟨_, entry, member, handle, positive⟩
    · exfalso
      rcases refused with ⟨unchunked, _⟩ | full
      · rw [chunked] at unchunked
        cases unchunked
      · have fed := s.fed_le s.cfg.maxNumBatchedTokens queued.computed
        rw [valid.layout.sized] at most
        omega
    · exact ⟨entry, member, handle.trans same, positive⟩

end Scheduler

/-- At least `count` tokens of request `id` have been computed, wherever it is. -/
structure Scheduler.Past (s : Scheduler M) (id count : Nat) : Prop where
  running : ∀ r ∈ s.running, r.id = id → count ≤ r.numComputedTokens
  waiting : count = 0 ∨ id ∉ s.waiting.map Request.id

namespace Plan

variable {plan next : Plan M} {id count : Nat}

/-- A request that has been preempted is not started again in the same call. -/
structure Past (plan : Plan M) (id count : Nat) : Prop where
  running : ∀ r ∈ plan.sched.running, r.id = id → count ≤ r.numComputedTokens
  waiting : plan.out.preempted = [] → count = 0 ∨ id ∉ plan.sched.waiting.map Request.id

theorem Step.past (step : Step plan next) (past : plan.Past id count) : next.Past id count := by
  obtain ⟨running, waiting⟩ := past
  cases step with
  | @extend req kv pool nNew nSpec inside =>
    refine ⟨?_, waiting⟩
    intro r member handle
    rcases Scheduler.mem_store.mp member with ⟨old, _⟩ | ⟨new, _⟩
    · exact running r old handle
    · rw [new] at handle ⊢
      exact running req inside handle
  | @preempt victim =>
    refine ⟨?_, fun none =>
      (append_ne_nil_of_right_ne_nil _ (cons_ne_nil _ _) none).elim⟩
    intro r member
    have same : (plan.preempt victim).sched.running = _ := plan.sched.preempt_running victim
    rw [same] at member
    exact running r (Keyed.mem_remove.mp member).1
  | @rehash first rest queue =>
    refine ⟨running, fun none => ?_⟩
    have before := waiting none
    rw [queue] at before
    change count = 0 ∨ id ∉ ((lookup plan.sched.pool first).1 :: rest).map Request.id
    rw [map_cons, lookup_fields]
    exact before
  | @start old first rest hits kv pool nComputed nNew queue seats none =>
    have before := waiting none
    rw [queue, map_cons, mem_cons, not_or] at before
    refine ⟨?_, fun _ => before.imp_right And.right⟩
    intro r member handle
    rcases mem_append.mp member with there | now
    · exact running r there handle
    rw [mem_singleton.mp now] at handle
    rcases before with zero | ⟨different, _⟩
    · rw [zero]
      exact Nat.zero_le _
    · exact (different handle.symm).elim

end Plan

theorem Scheduler.Past.schedule {s : Scheduler M} {id count : Nat} (past : s.Past id count)
    (unique : s.order.Nodup) :
    ∀ r ∈ s.schedule.2.running, r.id = id → count ≤ r.numComputedTokens := by
  obtain ⟨plan, shape, steps⟩ := s.schedule_steps (running_unique unique)
  have kept : plan.Past id count := by
    clear shape
    induction steps with
    | refl => exact ⟨past.running, fun _ => past.waiting⟩
    | tail _ step ih => exact step.past ih
  rw [shape]
  exact kept.running

namespace Engine

variable {e : Engine M} {id count : Nat}

/-- More than `count` tokens of request `id` have been computed, if it runs. -/
def Beyond (e : Engine M) (id count : Nat) : Prop :=
  ∀ r ∈ e.sched.running, r.id = id → count < r.numComputedTokens

theorem Beyond.finish (beyond : e.Beyond id count) (r : Request M) (status : RequestStatus)
    (why : FinishReason) (error : String) : (e.finish r status why error).Beyond id count :=
  fun other member => beyond other (finish_subset e r status why error member)

theorem Beyond.store {next : Request M} (beyond : e.Beyond id count)
    (enough : next.id = id → count < next.numComputedTokens) : (e.store next).Beyond id count := by
  intro other member handle
  rcases Scheduler.mem_store.mp member with ⟨old, _⟩ | ⟨new, _⟩
  · exact beyond other old handle
  · rw [new] at handle ⊢
    exact enough handle

theorem Beyond.embedTurn (hidden : List M.Embedding) (turn : ScheduledRequest × Option (Nat × Nat))
    (beyond : e.Beyond id count) : (e.embedTurn hidden turn).Beyond id count := by
  unfold Engine.embedTurn
  dsimp only
  split
  · exact beyond
  rename_i r found
  split
  · exact beyond
  split
  · exact Beyond.finish (e := e.access turn.1.req) beyond _ _ _ _
  · exact Beyond.store (e := e.access turn.1.req) beyond
      (fun handle => beyond r (Scheduler.mem_of_find found).1 handle)

theorem Beyond.draftTurn (drafts : Nat → List Token) (entry : ScheduledRequest)
    (beyond : e.Beyond id count) : (e.draftTurn drafts entry).Beyond id count := by
  unfold Engine.draftTurn
  dsimp only
  split
  · exact beyond
  rename_i r found
  split
  · exact Beyond.store (e := e.access entry.req) beyond
      (fun handle => beyond r (Scheduler.mem_of_find found).1 handle)
  · exact beyond

/-- The turn of the request itself may take its drafts back. -/
theorem Beyond.outputTurn {logits : List (List M.Logit)} {turn : ScheduledRequest × Option Nat}
    (beyond : e.Beyond id count)
    (drafts : turn.1.req = id → e.Beyond id (count + turn.1.nSpec)) :
    (e.outputTurn logits turn).1.Beyond id count := by
  unfold Engine.outputTurn
  dsimp only
  split
  · exact beyond
  rename_i r found
  obtain ⟨member, handle⟩ := Scheduler.mem_of_find found
  have stored : ∀ (rows : List (List M.Logit)) (next final : Request M) (ended : RowsEnd),
      r.verify e.cfg.maxModelLen rows turn.1.nSpec = (next, ended) → final.id = next.id →
      final.numComputedTokens = next.numComputedTokens →
      ((e.access turn.1.req).store final).Beyond id count := by
    intro rows next final ended shape same kept
    refine Beyond.store (e := e.access turn.1.req) beyond ?_
    intro own
    have least := r.verify_place e.cfg.maxModelLen turn.1.nSpec rows
    rw [shape] at least
    have there : r.id = id := least.1.symm.trans (same.symm.trans own)
    have far := drafts (handle.symm.trans there) r member there
    dsimp only at least
    omega
  split
  · exact beyond
  split
  · exact beyond
  split
  · rename_i shape
    exact stored _ _ _ _ shape rfl rfl
  · rename_i shape
    exact stored _ _ _ _ shape rfl rfl
  · exact Beyond.finish (e := e.access turn.1.req) beyond _ _ _ _
  · rename_i next shape
    obtain ⟨same, _, _, kept, _⟩ := continued_fields e.cfg next
    exact stored _ _ _ _ shape same kept

theorem Beyond.outputTurns (logits : List (List M.Logit))
    (turns : List (ScheduledRequest × Option Nat)) (beyond : e.Beyond id count)
    (unique : (turns.map (fun turn => turn.1.req)).Nodup)
    (drafts : ∀ turn ∈ turns, turn.1.req = id → e.Beyond id (count + turn.1.nSpec)) :
    (Engine.outputTurns logits turns e).1.Beyond id count := by
  induction turns generalizing e with
  | nil => exact beyond
  | cons turn turns ih =>
    rw [map_cons, nodup_cons] at unique
    have first : (e.outputTurn logits turn).1.Beyond id count :=
      beyond.outputTurn (drafts turn mem_cons_self)
    have later : ∀ next ∈ turns, next.1.req = id →
        (e.outputTurn logits turn).1.Beyond id (count + next.1.nSpec) := by
      intro next member own
      refine (drafts next (mem_cons_of_mem _ member) own).outputTurn ?_
      intro same
      exact (unique.1 (mem_map.mpr ⟨next, member, own.trans same.symm⟩)).elim
    rw [Engine.outputTurns]
    split
    · rename_i next shape
      rw [shape] at first later
      exact ih first unique.2 later
    · exact first

theorem Beyond.processEmbeddings (scheduled : List ScheduledRequest) (batch : Batch)
    (hidden : List M.Embedding) (beyond : e.Beyond id count) :
    (e.processEmbeddings scheduled batch hidden).Beyond id count := by
  unfold Engine.processEmbeddings
  split
  · exact foldlRecOn (motive := (Beyond · id count)) _ _ beyond
      fun _ far turn _ => far.embedTurn hidden turn
  · exact beyond

variable {service : Service M} {known : Registration → Prop} {input : StepInput}

/-- A computation that succeeds advances every request it was for. -/
theorem Invariant.compute_beyond (inv : e.Invariant service known) (knows : e.sched.Knows known)
    {turns : List (Batch.Turn M)} (scheduled : Batch.Turns e.sched turns)
    (success : input.failure = none) (fed : ∃ turn ∈ turns, turn.2.req = id)
    (past : ∀ r ∈ e.sched.running, r.id = id → count ≤ r.numComputedTokens) :
    (e.compute (turns.map Prod.snd) input).1.Beyond id count := by
  rw [compute_success success]
  have middle : ∀ turn ∈ turns, turn.2.req = id →
      (e.embedded turns).Beyond id (count + turn.2.nSpec) := by
    intro turn member own
    refine Beyond.processEmbeddings _ _ _ fun r running handle => ?_
    obtain ⟨_, computed⟩ := inv.committed_turn knows scheduled member running
      (handle.trans own.symm)
    have before := past turn.1 (scheduled.running turn member)
      ((scheduled.handle turn member).trans own)
    have real := (scheduled.ready turn member).real
    omega
  have far : (e.embedded turns).Beyond id count := by
    obtain ⟨turn, member, own⟩ := fed
    intro r running handle
    have enough := middle turn member own r running handle
    omega
  have outputs := far.outputTurns ((e.batchOf turns).logits (e.committed turns).cells)
    ((turns.map Prod.snd).zip (e.batchOf turns).logitRows) (unique_turns scheduled _) (by
      intro turn member own
      obtain ⟨old, inside, same⟩ := mem_map.mp (of_mem_zip member).1
      rw [← same] at own ⊢
      exact middle old inside own)
  unfold Engine.processOutputs
  split
  · rename_i next shape
    rw [shape] at outputs
    split
    · exact foldlRecOn (motive := (Beyond · id count)) _ _ outputs
        fun _ far entry _ => far.draftTurn input.drafts entry
    · exact outputs
  · exact outputs

/-- After the ingest a request only leaves the waiting queue. -/
theorem waiting_frame : Frame (fun e next : Engine M => next.sched.waiting ⊆ e.sched.waiting) := by
  refine .of (fun _ => List.Subset.refl _) (fun first second => List.Subset.trans second first)
    (fun _ _ => List.Subset.refl _) (fun _ _ => List.Subset.refl _) ?_
  intro e r status why error
  unfold finish
  split
  · exact List.Subset.refl _
  unfold Scheduler.finishRequest
  dsimp only
  split
  · exact List.Subset.refl _
  · exact fun _ member => (Keyed.mem_remove.mp member).1

variable {e next : Engine M} {id count : Nat} {service : Service M} {known : Registration → Prop}
    {actions : List Action} {cfg : EngineConfig}

theorem stepBody_computes (member : entry ∈ e.sched.schedule.1.scheduled)
    (some : e.sched.order ≠ []) (input : StepInput) :
    e.stepBody input = ((e.computed input).1, (e.computed input).2 >>= fun _ => .ok true) := by
  rcases e.stepBody_cases input with ⟨_, ⟨_, idle⟩ | ⟨unscheduled, _⟩⟩ | shape
  · rw [Scheduler.hasRequests, Bool.or_eq_false_iff, Bool.not_eq_false', Bool.not_eq_false',
      List.isEmpty_iff, List.isEmpty_iff] at idle
    refine (some ?_).elim
    rw [Scheduler.order_eq, idle.1, idle.2]
    rfl
  · rw [unscheduled] at member
    cases member
  · exact shape

/-- A request that is not done keeps its place: those ahead of it have only become fewer. -/
theorem Thins.behind {ahead rest : List Nat} (thins : Thins e next) (unique : e.sched.order.Nodup)
    (order : e.sched.order = ahead ++ id :: rest) :
    id ∈ next.done.map Request.id ∨
      ∃ fewer rest, next.sched.order = fewer ++ id :: rest ∧ fewer <+ ahead := by
  obtain ⟨gone, done, thinned⟩ := thins unique
  by_cases ended : id ∈ gone
  · left
    rw [done]
    exact mem_append_right _ ended
  · right
    refine ⟨ahead.filter (· ∉ gone), rest.filter (· ∉ gone), ?_, filter_sublist⟩
    rw [thinned, order]
    simp [ended]

theorem Thins.head (thins : Thins e next) (unique : e.sched.order.Nodup)
    (order : e.sched.order = id :: rest) :
    id ∈ next.done.map Request.id ∨ ∃ rest, next.sched.order = id :: rest := by
  refine (thins.behind unique (show _ = [] ++ _ from order)).imp_right ?_
  rintro ⟨_, rest, order, fewer⟩
  rw [sublist_nil.mp fewer] at order
  exact ⟨rest, order⟩

/-- The ingest leaves the oldest request where it is. -/
theorem Invariant.ingest_past (inv : e.Invariant service known) (fcfs : e.sched.cfg.policy = .fcfs)
    (live : id ∈ e.sched.order) (past : e.sched.Past id count) : e.ingest.sched.Past id count := by
  refine ⟨fun r member => past.running r (e.ingest_subset member), ?_⟩
  rcases past.waiting with zero | absent
  · exact .inl zero
  right
  intro inside
  have joined : e.taken.sched.order = e.sched.order ++ e.newRequests.map Request.id :=
    Scheduler.addRequests_order _ fcfs
  have unique : e.taken.sched.order.Nodup := inv.taken.sched.unique
  have waiting : e.taken.sched.waiting.map Request.id =
      e.sched.waiting.map Request.id ++ e.newRequests.map Request.id := by
    have split := joined
    rw [Scheduler.order_eq, Scheduler.order_eq, taken_fields, append_assoc] at split
    exact append_cancel_left split
  have taken : id ∈ e.taken.sched.waiting.map Request.id :=
    map_subset _ (waiting_frame.aborts e) inside
  rw [waiting] at taken
  rw [joined, nodup_append] at unique
  rcases mem_append.mp taken with old | new
  · exact absent old
  · exact unique.2.2 id live id new rfl

/-- A batch that contains the request computes more of it, and leaves it out of the queue. -/
theorem Invariant.compute_past (inv : e.Invariant service known) (sound : service.Sound known)
    (knows : e.sched.Knows known) (past : e.sched.Past id count)
    (member : entry ∈ e.sched.schedule.1.scheduled) (handle : entry.req = id) (input : StepInput)
    (success : (e.computed input).2 = .ok ()) :
    (e.computed input).1.sched.Past id (count + 1) := by
  obtain ⟨planned, known, turns, sorted, ready⟩ := inv.schedule sound knows
  have inside : entry ∈ turns.map Prod.snd := by
    rw [sorted]
    exact (batchOrder_perm e.cfg _).mem_iff.mpr member
  obtain ⟨turn, there, same⟩ := mem_map.mp inside
  rw [computed, ← sorted] at success ⊢
  refine ⟨?_, .inr ?_⟩
  · refine planned.compute_beyond known ready ?_ ⟨turn, there, by rw [same, handle]⟩
      (past.schedule inv.sched.unique)
    cases failure : input.failure with
    | none => rfl
    | some thrown =>
      rw [Engine.compute, failure] at success
      cases success
  · intro waits
    have shrunk := waiting_frame.compute (e := e.planned) (turns.map Prod.snd) input
      (fun _ entries => by
        rw [(Scheduler.updateAfterStep_frame entries _).2.1]
        exact List.Subset.refl _)
    have unique : e.sched.schedule.2.order.Nodup := planned.sched.unique
    rw [Scheduler.order_eq, nodup_append] at unique
    have runs := (inv.sched.scheduled_running member).1
    rw [handle] at runs
    exact unique.2.2 id runs id (map_subset _ shrunk waits) rfl

/-- A step that feeds the oldest request finishes it or computes more of it. -/
theorem Invariant.step_oldest (inv : e.Invariant service known) (sound : service.Sound known)
    (knows : e.Knows known) (fcfs : e.sched.cfg.policy = .fcfs)
    (feeds : ∀ rest, e.ingest.sched.order = id :: rest →
      ∃ entry ∈ e.ingest.sched.schedule.1.scheduled, entry.req = id)
    (order : e.sched.order = id :: rest) (past : e.sched.Past id count)
    (steady : input.failure = none → e.ingest.SteadyStep service)
    (alive : (Engine.handle (e.step input)).crashed = false) :
    id ∈ (Engine.handle (e.step input)).done.map Request.id ∨
      (∃ rest, (Engine.handle (e.step input)).sched.order = id :: rest) ∧
        (Engine.handle (e.step input)).sched.Past id (count + 1) := by
  have unique : e.taken.sched.order.Nodup := inv.taken.sched.unique
  have joined : e.taken.sched.order = id :: (rest ++ e.newRequests.map Request.id) := by
    rw [← cons_append, ← order]
    exact Scheduler.addRequests_order _ fcfs
  rcases (thins_frame.aborts e).head unique joined with aborted | ⟨others, started⟩
  · left
    have kept := (e.ingest.stepBody_done input).trans (handle_done (e.step input))
    exact (kept.map Request.id).subset aborted
  · rcases (Thins.step inv fcfs input).head unique joined with ended | ⟨after, final⟩
    · exact .inl ended
    right
    refine ⟨⟨after, final⟩, ?_⟩
    obtain ⟨entry, member, handle⟩ := feeds others started
    have start := inv.ingest.1
    have heard := inv.ingest_knows knows
    have stepped := (start.stepBody sound heard steady).1
    have live : id ∈ e.sched.order := by rw [order]; exact mem_cons_self
    have advanced := start.compute_past sound heard (inv.ingest_past fcfs live past) member handle
      input
    unfold Engine.step at alive final ⊢
    rw [stepBody_computes member (by rw [started]; exact cons_ne_nil _ _) input]
      at stepped alive final ⊢
    generalize e.ingest.computed input = result at advanced stepped alive final ⊢
    obtain ⟨next, outcome⟩ := result
    cases outcome with
    | ok value => exact advanced rfl
    | aborted => cases alive
    | threw message =>
      have empty := stepped.finishAll_empty .finishedError (.inr rfl) message
      have gone : (next.finishAll .finishedError .error message).sched.order = [] := by
        rw [Scheduler.order, empty]
        rfl
      cases gone.symm.trans final

theorem step_done (e : Engine M) (input : StepInput) :
    e.done <+: (handle (e.step input)).done :=
  (done_frame.aborts e).trans ((e.ingest.stepBody_done input).trans (handle_done (e.step input)))

/-- FCFS with chunked prefill, a seat, a token of budget and a pool that holds the context. -/
structure Fair (cfg : EngineConfig) : Prop where
  fcfs : cfg.sched.policy = .fcfs
  chunked : cfg.sched.enableChunkedPrefill = true
  seats : 1 ≤ cfg.sched.maxNumSeqs
  budget : 1 ≤ cfg.sched.maxNumBatchedTokens
  room : (cfg.maxModelLen + cfg.blockSize - 1) / cfg.blockSize ≤ cfg.numBlocks
  drafts : (cfg.sched.maxModelLen + cfg.blockSize - 1) / cfg.blockSize ≤ cfg.numBlocks

theorem Fair.feeds (fair : Fair cfg) (alive : (run M cfg actions).crashed = false) {rest : List Nat}
    (order : (run M cfg actions).ingest.sched.order = id :: rest) :
    ∃ entry ∈ (run M cfg actions).ingest.sched.schedule.1.scheduled,
      entry.req = id ∧ 0 < entry.nNewTokens := by
  have inv := run_invariant M cfg actions
  have config := run_ingest_schedCfg M cfg actions
  have length : (run M cfg actions).ingest.cells.length = cfg.numBlocks * cfg.blockSize := by
    have same := congrArg Ambient.cells (run M cfg actions).ingest_ambient
    change (run M cfg actions).ingest.cells = (run M cfg actions).cells at same
    have size : (run M cfg actions).sched.pool.blockSize = cfg.blockSize := inv.blockSize
    rw [same, inv.sched.layout.sized, run_numBlocks, size]
  refine inv.ingest.1.sched.schedule_oldest ?_ ?_ (by rw [config, fair.chunked])
    (by rw [config]; exact fair.seats) (by rw [config]; exact fair.budget) ?_ order
  · exact fun r member => run_due M cfg actions alive r ((run M cfg actions).ingest_subset member)
  · intro r member
    have sized := run_sized M cfg actions r (inv.ingest.2.1 r member)
    refine ⟨sized.some, sized.most.trans ?_⟩
    rw [length]
    exact (ceil_le cfg.blockSize_pos).mp fair.room
  · rw [config, length]
    exact (ceil_le cfg.blockSize_pos).mp fair.drafts

def Action.isStep : Action → Bool
  | .step _ => true
  | _ => false

/-- The oldest request has fewer computed tokens than the context. -/
theorem run_past_lt (alive : (run M cfg actions).crashed = false)
    (order : (run M cfg actions).sched.order = id :: rest)
    (past : (run M cfg actions).sched.Past id count) : count < cfg.maxModelLen := by
  have listed : id ∈ (run M cfg actions).sched.order := order ▸ mem_cons_self
  obtain ⟨r, member, same⟩ := mem_map.mp listed
  obtain ⟨some, most, _⟩ := run_sized M cfg actions r (mem_append_right _ member)
  rcases mem_append.mp member with running | waiting
  · have far := past.running r running same
    have due : r.numComputedTokens < r.nTokens := run_due M cfg actions alive r running
    omega
  · rcases past.waiting with zero | absent
    · omega
    · exact (absent (mem_map.mpr ⟨r, waiting, same⟩)).elim

/-- A request nobody has overtaken: each of the steps belongs to a request of `ahead` that has
left, with the steps of a whole context, or has computed more of the oldest one. -/
def Waits (e : Engine M) (limit : Nat) (ahead : List Nat) (id steps : Nat) : Prop :=
  ∃ fewer rest first others count, e.sched.order = fewer ++ id :: rest ∧ fewer <+ ahead ∧
    e.sched.order = first :: others ∧ e.sched.Past first count ∧
    steps + fewer.length * limit ≤ ahead.length * limit + count

theorem Waits.of {limit steps : Nat} {ahead fewer rest : List Nat}
    (order : e.sched.order = fewer ++ id :: rest) (fewest : fewer <+ ahead)
    (few : steps + fewer.length * limit ≤ ahead.length * limit) : e.Waits limit ahead id steps := by
  obtain ⟨first, others, shape⟩ := exists_cons_of_ne_nil (append_ne_nil_of_right_ne_nil fewer
    (cons_ne_nil id rest))
  exact ⟨fewer, rest, first, others, 0, order, fewest, order.trans shape,
    ⟨fun _ _ _ => Nat.zero_le _, .inl rfl⟩, few⟩

theorem Fair.run_waits (fair : Fair cfg) {ahead rest : List Nat}
    (order : (run M cfg actions).sched.order = ahead ++ id :: rest) (more : List Action)
    (alive : (run M cfg (actions ++ more)).crashed = false) :
    id ∈ (run M cfg (actions ++ more)).done.map Request.id ∨
      (run M cfg (actions ++ more)).Waits cfg.maxModelLen ahead id (more.countP Action.isStep) := by
  induction more using List.reverseRecOn with
  | nil =>
    rw [append_nil]
    exact .inr (.of order (.refl _) (Nat.zero_add _).le)
  | append_singleton more action ih =>
    rw [← append_assoc] at alive ⊢
    have before := run_alive alive
    have earlier := ih before
    have inv := run_invariant M cfg (actions ++ more)
    have after := (run_invariant M cfg (actions ++ more ++ [action])).ids_unique
    have fcfs : (run M cfg (actions ++ more)).sched.cfg.policy = .fcfs := by
      rw [run_schedCfg, fair.fcfs]
    rw [run_concat] at alive after ⊢
    rw [countP_append]
    rcases (run M cfg (actions ++ more)).act_cases action with
      ⟨input, rfl, _, stepped⟩ | ⟨dead, idle⟩
    · rw [stepped] at alive after ⊢
      change _ ∨ Waits _ _ _ _ (_ + 1)
      rcases earlier with ended | ⟨fewer, rest, first, _, count, line, fewest, oldest, past, steps⟩
      · exact .inl (((step_done _ input).map Request.id).subset ended)
      have joined := Scheduler.addRequests_order (run M cfg (actions ++ more)).newRequests fcfs
      rw [line, append_assoc, cons_append] at joined
      rcases (Thins.step inv fcfs input).behind inv.taken.sched.unique joined with
        ended | ⟨least, rest, still, leaner⟩
      · exact .inl ended
      rcases inv.step_oldest runService_sound (run_knows M cfg (actions ++ more)) fcfs
          (fun _ order => (fair.feeds before order).imp
            fun _ entry => ⟨entry.1, entry.2.1⟩) oldest past
          (fun _ _ _ _ _ _ _ => trivial) alive with gone | ⟨⟨others, head⟩, further⟩
      · rw [line] at oldest
        cases fewer with
        | nil => exact .inl ((List.cons.inj oldest).1 ▸ gone)
        | cons _ fewer =>
          obtain rfl := (List.cons.inj oldest).1
          have short := run_past_lt before line past
          -- the oldest request has left, so it is not among those that are still ahead
          rw [map_append, nodup_append, map_append] at after
          cases leaner with
          | cons_cons =>
            refine (after.2.2 _ (mem_append_right _ ?_) _ gone rfl).elim
            rw [← Scheduler.order, still]
            exact mem_cons_self
          | cons _ leaner =>
            have few := Nat.mul_le_mul_right cfg.maxModelLen leaner.length_le
            rw [length_cons, Nat.add_one_mul] at steps
            exact .inr (.of still (leaner.trans (sublist_of_cons_sublist fewest)) (by omega))
      · have few := Nat.mul_le_mul_right cfg.maxModelLen leaner.length_le
        exact .inr ⟨least, rest, first, others, _, still, leaner.trans fewest, head, further, by
          omega⟩
    · have quiet : action.isStep = false := by
        cases action with
        | step input =>
          rw [dead input rfl] at before
          cases before
        | _ => rfl
      rw [Waits, idle.sched, idle.done, countP_singleton, quiet]
      exact earlier

/-- The oldest request has ended, or every step has computed more of it. -/
theorem Fair.run_past (fair : Fair cfg) (order : (run M cfg actions).sched.order = id :: rest)
    (more : List Action) (alive : (run M cfg (actions ++ more)).crashed = false) :
    id ∈ (run M cfg (actions ++ more)).done.map Request.id ∨
      (∃ rest, (run M cfg (actions ++ more)).sched.order = id :: rest) ∧
        (run M cfg (actions ++ more)).sched.Past id (more.countP Action.isStep) := by
  refine (fair.run_waits (show _ = [] ++ _ from order) more alive).imp_right ?_
  rintro ⟨_, rest, first, others, count, line, fewest, oldest, past, steps⟩
  rw [sublist_nil.mp fewest] at line steps
  obtain rfl : id = first := (List.cons.inj (line.symm.trans oldest)).1
  rw [length_nil, Nat.zero_mul, Nat.zero_add, Nat.add_zero] at steps
  exact ⟨⟨rest, line⟩, fun r running own => steps.trans (past.running r running own),
    past.waiting.imp_left fun zero => Nat.le_zero.mp (steps.trans_eq zero)⟩

/-- No starvation: every step feeds the oldest request and does not preempt it, and after as
many steps as the context has tokens it has ended. -/
theorem run_oldest (M : Model) (cfg : EngineConfig) (fair : Fair cfg) (actions : List Action)
    (alive : (run M cfg actions).crashed = false) :
    (∀ id rest, (run M cfg actions).ingest.sched.order = id :: rest →
      (∃ entry ∈ (run M cfg actions).ingest.sched.schedule.1.scheduled,
        entry.req = id ∧ 1 ≤ entry.nNewTokens) ∧
      id ∉ (run M cfg actions).ingest.sched.schedule.1.preempted) ∧
    ∀ id rest, (run M cfg actions).sched.order = id :: rest → ∀ more,
      cfg.maxModelLen ≤ more.countP Action.isStep →
      (run M cfg (actions ++ more)).crashed = false →
      id ∈ (run M cfg (actions ++ more)).done.map Request.id := by
  refine ⟨?_, ?_⟩
  · intro id rest order
    obtain ⟨entry, member, handle, positive⟩ := fair.feeds alive order
    refine ⟨⟨entry, member, handle, positive⟩, ?_⟩
    rw [← handle]
    exact ((run_invariant M cfg actions).ingest.1.sched.scheduled_running member).2
  · intro id rest order more enough still
    rcases fair.run_past order more still with ended | ⟨⟨others, first⟩, past⟩
    · exact ended
    have listed : id ∈ (run M cfg (actions ++ more)).sched.order := by
      rw [first]
      exact mem_cons_self
    obtain ⟨r, member, same⟩ := mem_map.mp listed
    have sized := run_sized M cfg (actions ++ more) r (mem_append_right _ member)
    have some := sized.some
    have most := sized.most
    rcases mem_append.mp member with running | waiting
    · have far := past.running r running same
      have due : r.numComputedTokens < r.nTokens :=
        run_due M cfg (actions ++ more) still r running
      omega
    · rcases past.waiting with zero | absent
      · omega
      · exact (absent (mem_map.mpr ⟨r, waiting, same⟩)).elim

theorem run_oldest_pressed :
    let e := run Model.counting (pressedConfig .fcfs) pressedRun
    e.ingest.sched.order = [1, 2] ∧
      1 ∉ e.ingest.sched.schedule.1.preempted ∧
      1 ∈ (run Model.counting (pressedConfig .fcfs)
        (pressedRun ++ [.step {}, .step {}, .step {}, .step {}])).done.map Request.id := by
  have fair : Fair (pressedConfig .fcfs) := ⟨rfl, rfl, by decide, by decide, by decide, by decide⟩
  have oldest := run_oldest Model.counting (pressedConfig .fcfs) fair pressedRun (by decide +kernel)
  refine ⟨by decide +kernel, (oldest.1 1 [2] (by decide +kernel)).2,
    oldest.2 1 [2] (by decide +kernel) _ (by decide) (by decide +kernel)⟩

/-- Bounded waiting: a request the scheduler holds has ended once the engine has made as many
steps as the context has tokens, for each request ahead of it and for the request itself,
whatever is submitted and aborted in between. -/
theorem run_waiting_bounded (M : Model) (cfg : EngineConfig) (fair : Fair cfg)
    (actions : List Action) (ahead : List Nat) (id : Nat) (rest : List Nat)
    (order : (run M cfg actions).sched.order = ahead ++ id :: rest) (more : List Action)
    (enough : (ahead.length + 1) * cfg.maxModelLen ≤ more.countP Action.isStep)
    (alive : (run M cfg (actions ++ more)).crashed = false) :
    id ∈ (run M cfg (actions ++ more)).done.map Request.id := by
  refine (fair.run_waits order more alive).resolve_right ?_
  rintro ⟨fewer, _, first, others, count, _, _, oldest, past, steps⟩
  have short := run_past_lt alive oldest past
  rw [Nat.add_one_mul] at enough
  omega

theorem run_waiting_bounded_pressed : 2 ∈ (run Model.counting (pressedConfig .fcfs)
    (pressedRun ++ replicate 8 (.step {}))).done.map Request.id :=
  run_waiting_bounded Model.counting (pressedConfig .fcfs)
    ⟨rfl, rfl, by decide, by decide, by decide, by decide⟩ pressedRun [1] 2 [] (by decide +kernel)
    _ (by decide +kernel) (by decide +kernel)

end Engine

end Iian
