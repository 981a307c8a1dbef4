import Iian.KvRun
import Iian.Lifecycle

/- When a step makes progress: which requests `schedule` admits, when it stops at the first
waiting request, and which requests are failed because they do not fit. -/
namespace Iian

open List Lib

variable {M : Model}

namespace BlockPool

/-- While no block is in use, a request without blocks gets as many tokens as the pool
holds, whatever it finds in the prefix cache. -/
theorem Invariant.allocateSlots_idle {pool : BlockPool} (inv : Invariant pool [] [])
    (size : 0 < pool.blockSize) {hits : List Nat} {nTotalTokens : Nat}
    (covered : hits.length * pool.blockSize ≤ nTotalTokens) :
    (pool.allocateSlots {} nTotalTokens hits).1 = true ↔
      nTotalTokens ≤ pool.numBlocks * pool.blockSize := by
  have free : pool.numFree = pool.numBlocks := inv.wellFormed.released rfl
  have untouched : hits.countP (fun block => pool.refCount block = 0) = hits.length := by
    rw [countP_eq_length]
    intro block _
    rw [decide_eq_true_eq, inv.counted, count_nil]
  have least : hits.length ≤ (nTotalTokens + pool.blockSize - 1) / pool.blockSize := by
    rw [Nat.le_div_iff_mul_le size]
    omega
  rw [← ceil_le size]
  unfold BlockPool.allocateSlots
  simp only [isEmpty_nil, ↓reduceIte, untouched, free, length_nil, Nat.zero_add]
  generalize (nTotalTokens + pool.blockSize - 1) / pool.blockSize = needed at least
  have count : (if needed > hits.length then needed - hits.length else 0) + hits.length =
      needed := by split <;> omega
  generalize (if needed > hits.length then needed - hits.length else 0) = nNew at count
  rw [count]
  by_cases full : needed > pool.numBlocks
  · rw [if_pos full]
    exact ⟨nofun, fun fits => absurd full (Nat.not_lt.mpr fits)⟩
  · rw [if_neg full]
    refine ⟨fun _ => Nat.le_of_not_lt full, fun _ => ?_⟩
    split <;> rfl

end BlockPool

namespace Plan

variable {plan next : Plan M} {req : Request M}

theorem Step.scheduled_grows (step : Step plan next) :
    plan.out.scheduled <+: next.out.scheduled := by
  cases step with
  | extend => exact prefix_append _ _
  | preempt => exact prefix_refl _
  | rehash => exact prefix_refl _
  | start => exact prefix_append _ _

theorem Steps.scheduled_grows (steps : Steps plan next) :
    plan.out.scheduled <+: next.out.scheduled := by
  induction steps with
  | refl => exact prefix_refl _
  | tail _ step ih => exact ih.trans step.scheduled_grows

/-- A request with a token left is fed something. -/
theorem wanted_pos {cfg : SchedulerConfig} {budget nComputed : Nat} (left : nComputed < req.nTokens)
    (some : 0 < budget) :
    0 < wanted cfg budget req nComputed := by
  unfold wanted chunk
  dsimp only
  split <;> omega

/-- A failed allocation has preempted somebody. -/
theorem allocateRunning_preempts {nTotalTokens turns : Nat} (some : plan.sched.running ≠ [])
    (failed : (allocateRunning req nTotalTokens (turns + 1) plan).2 = false) :
    (allocateRunning req nTotalTokens (turns + 1) plan).1.out.preempted ≠ [] := by
  rw [allocateRunning_preempted, allocateVictims]
  rw [allocateRunning] at failed
  generalize plan.sched.pool.allocateSlots req.kv nTotalTokens [] = result at failed ⊢
  obtain ⟨enough, kv, pool⟩ := result
  cases enough with
  | true => cases failed
  | false =>
    obtain ⟨victim, last⟩ : ∃ victim, plan.sched.running.getLast? = .some victim :=
      Option.ne_none_iff_exists'.mp (fun none => some (getLast?_eq_none_iff.mp none))
    rw [last]
    dsimp only
    split <;> simp

/-- The turn of the first running request. -/
theorem scheduleRunning_first {first : Request M} {turns nNew nSpec : Nat}
    (found : plan.sched.running[0]? = some first) (budget : 0 < plan.budget)
    (amount : wanted plan.sched.cfg plan.budget first first.numComputedTokens = nNew)
    (positive : 0 < nNew) (drafts : wantedSpec plan.sched.cfg plan.budget first nNew = nSpec) :
    scheduleRunning (turns + 1) 0 plan =
      match allocateRunning first (first.numComputedTokens + (nNew + nSpec))
          plan.sched.running.length plan with
      | (plan, false) => plan
      | (plan, true) => scheduleRunning turns 1 (plan.push plan.sched
          { req := first.id, nNewTokens := nNew + nSpec, nSpec := nSpec, resumed := false }) := by
  subst drafts
  rw [scheduleRunning, found]
  dsimp only
  rw [if_neg (by omega), amount]
  exact if_neg (by omega)

end Plan

variable {first r : Request M} {rest : List (Request M)}

namespace Scheduler

variable {s : Scheduler M} {cells : Cells M} {known : Registration → Prop}

theorem schedule_idle (idle : s.running = []) :
    s.schedule =
      ((Plan.scheduleWaiting s.waiting s.start).out, (Plan.scheduleWaiting s.waiting s.start).sched) := by
  have nothing : Plan.scheduleRunning s.running.length 0 s.start = s.start := by
    rw [idle]
    rfl
  rw [schedule, nothing]
  rfl

/-- Phase 2 only adds to what phase 1 has scheduled. -/
theorem schedule_phases (s : Scheduler M) :
    (Plan.scheduleRunning s.running.length 0 s.start).out.scheduled <+: s.schedule.1.scheduled ∧
      s.schedule.1.preempted =
        (Plan.scheduleRunning s.running.length 0 s.start).out.preempted := by
  unfold schedule
  dsimp only
  split
  · rename_i none
    exact ⟨(Plan.scheduleWaiting_steps _ rfl (List.isEmpty_iff.mp none)).scheduled_grows,
      Plan.scheduleWaiting_preempted _ _⟩
  · exact ⟨prefix_refl _, rfl⟩

section

variable (unique : s.order.Nodup) (queue : s.running = first :: rest) (due : first.Due)
    (budget : 0 < s.cfg.maxNumBatchedTokens)

include unique queue due budget

/-- The turn of the first running request ends with blocks for its tokens, or with a
preemption. -/
theorem schedule_first {nNew nSpec : Nat}
    (amount : Plan.wanted s.cfg s.cfg.maxNumBatchedTokens first first.numComputedTokens = nNew)
    (drafts : Plan.wantedSpec s.cfg s.cfg.maxNumBatchedTokens first nNew = nSpec) :
    ((Plan.allocateRunning first (first.numComputedTokens + (nNew + nSpec)) s.running.length
          s.start).2 = true →
        ∃ entry ∈ s.schedule.1.scheduled, entry.req = first.id ∧ 0 < entry.nNewTokens) ∧
      ((Plan.allocateRunning first (first.numComputedTokens + (nNew + nSpec)) s.running.length
          s.start).2 = false →
        s.schedule.1.preempted ≠ []) := by
  obtain ⟨kept, preempted⟩ := schedule_phases s
  have length : s.running.length = rest.length + 1 := by rw [queue, length_cons]
  have found : s.running[0]? = some first := by rw [queue]; rfl
  have ordered := start_ordered (running_unique unique)
  have positive : 0 < nNew := by
    rw [← amount]
    exact Plan.wanted_pos due budget
  have turn := @Plan.scheduleRunning_first M s.start first rest.length nNew nSpec found budget
    amount positive drafts
  rw [← length] at turn
  rw [turn] at kept preempted
  have acts := @Plan.allocateRunning_preempts M s.start first (first.numComputedTokens + (nNew + nSpec)) rest.length
    (by rw [queue]; exact cons_ne_nil _ _)
  rw [← length] at acts
  rcases Plan.allocateRunning_steps (first.numComputedTokens + (nNew + nSpec)) s.running.length
      ordered found with ⟨next, shape, _⟩ | ⟨middle, kv, pool, shape, _, placed, there, _⟩
  · rw [shape] at acts preempted ⊢
    refine ⟨nofun, fun _ => ?_⟩
    rw [preempted]
    exact acts rfl
  · rw [shape] at kept ⊢
    refine ⟨fun _ => ?_, nofun⟩
    have later := (Plan.scheduleRunning_steps rest.length (placed.extend there pool kv
      (show ScheduledRequest.req ⟨first.id, nNew + nSpec, nSpec, false⟩ = first.id
        from rfl))).scheduled_grows
    refine ⟨⟨first.id, nNew + nSpec, nSpec, false⟩, (later.trans kept).subset ?_, rfl, ?_⟩
    · exact mem_append_right _ mem_cons_self
    · exact Nat.add_pos_left positive _

/-- While requests run, `schedule` feeds the first of them or preempts one. -/
theorem schedule_running :
    (∃ entry ∈ s.schedule.1.scheduled, entry.req = first.id ∧ 0 < entry.nNewTokens) ∨
      s.schedule.1.preempted ≠ [] := by
  obtain ⟨fed, preempted⟩ := schedule_first unique queue due budget rfl rfl
  generalize (Plan.allocateRunning first _ s.running.length s.start).2 = allocated at fed preempted
  cases allocated with
  | true => exact .inl (fed rfl)
  | false => exact .inr (preempted rfl)

end

/-- The tokens that the prefix cache supplies to a waiting request. -/
def hitTokens (s : Scheduler M) (r : Request M) : Nat :=
  (Plan.lookup s.pool r).2.length * s.pool.blockSize

/-- Why phase 2 stops at a request although nothing runs: without chunked prefill what is
left of it exceeds the budget, or its tokens exceed the pool. -/
def Refuses (s : Scheduler M) (r : Request M) : Prop :=
  s.cfg.enableChunkedPrefill = false ∧
      s.cfg.maxNumBatchedTokens < Plan.chunk s.cfg r (s.hitTokens r) ∨
    s.pool.numBlocks * s.pool.blockSize <
      s.hitTokens r + Plan.wanted s.cfg s.cfg.maxNumBatchedTokens r (s.hitTokens r)

/-- The lookup has recorded the hashes of the first waiting request. -/
def rehash (s : Scheduler M) : Scheduler M :=
  match s.waiting with
  | [] => s
  | first :: rest => { s with waiting := (Plan.lookup s.pool first).1 :: rest }

theorem rehash_fields (s : Scheduler M) : s.rehash = { s with waiting := s.rehash.waiting } := by
  unfold rehash
  split <;> rfl

theorem rehash_places (s : Scheduler M) :
    s.rehash.waiting.map (fun r => (r.id, r.status)) = s.waiting.map (fun r => (r.id, r.status)) := by
  unfold rehash
  split
  · rfl
  rename_i first rest queue
  rw [queue, Plan.lookup_fields]
  rfl

theorem mem_rehash (member : r ∈ s.rehash.waiting) :
    ∃ old ∈ s.waiting, r.id = old.id ∧ r.status = old.status := by
  have place := mem_map_of_mem (f := fun r => (r.id, r.status)) member
  rw [rehash_places] at place
  obtain ⟨old, inside, same⟩ := mem_map.mp place
  exact ⟨old, inside, congrArg Prod.fst same.symm, congrArg Prod.snd same.symm⟩

theorem rehash_mem (member : r ∈ s.waiting) :
    ∃ new ∈ s.rehash.waiting, new.id = r.id ∧ new.status = r.status := by
  have place := mem_map_of_mem (f := fun r => (r.id, r.status)) member
  rw [← rehash_places] at place
  obtain ⟨new, inside, same⟩ := mem_map.mp place
  exact ⟨new, inside, congrArg Prod.fst same, congrArg Prod.snd same⟩

/-- While nothing runs, the first waiting request is admitted unless it is refused. -/
theorem schedule_head (idle : s.running = []) (unused : s.pool.Invariant [] [])
    (size : 0 < s.pool.blockSize) (queue : s.waiting = first :: rest) (queued : first.Queued)
    (some : 0 < first.nTokens) (seats : 0 < s.cfg.maxNumSeqs)
    (budget : 0 < s.cfg.maxNumBatchedTokens) :
    s.Refuses first ∧ s.schedule = ({}, s.rehash) ∨
      ¬ s.Refuses first ∧
        ∃ entry ∈ s.schedule.1.scheduled, entry.req = first.id ∧ 0 < entry.nNewTokens := by
  rw [schedule_idle idle, rehash, queue, Plan.scheduleWaiting, Refuses, hitTokens]
  have fields := Plan.lookup_fields s.pool first
  dsimp only
  rw [if_neg (by rw [idle, length_nil]; omega)]
  generalize found : Plan.lookup s.pool first = result at fields ⊢
  obtain ⟨req, hits⟩ := result
  have fetched := Plan.lookup_hits found
  dsimp only at fields ⊢
  generalize req.blockHashes = hashes at fields fetched
  subst fields
  have computed : Plan.computedAt s.pool { first with blockHashes := hashes } hits =
      hits.length * s.pool.blockSize := if_pos queued.computed
  rw [if_pos queued.computed] at fetched
  rw [computed]
  have behind := s.pool.getComputedBlocks_length first.tokens hashes some
  rw [← fetched] at behind
  have positive : 0 < Plan.wanted s.cfg s.cfg.maxNumBatchedTokens first
      (hits.length * s.pool.blockSize) := Plan.wanted_pos behind budget
  rw [show Plan.chunk s.cfg { first with blockHashes := hashes } = Plan.chunk s.cfg first from rfl,
    show Plan.wanted s.cfg s.cfg.maxNumBatchedTokens { first with blockHashes := hashes } =
      Plan.wanted s.cfg s.cfg.maxNumBatchedTokens first from rfl]
  by_cases long : s.cfg.enableChunkedPrefill = false ∧
      Plan.chunk s.cfg first (hits.length * s.pool.blockSize) > s.cfg.maxNumBatchedTokens
  · rw [if_pos long]
    exact .inl ⟨.inl long, rfl⟩
  rw [if_neg long, if_neg (Nat.ne_of_gt positive), queued.kv]
  have fits := @BlockPool.Invariant.allocateSlots_idle s.pool unused size hits _
    (Nat.le_add_right _ (Plan.wanted s.cfg s.cfg.maxNumBatchedTokens first
      (hits.length * s.pool.blockSize)))
  generalize s.pool.allocateSlots {} _ hits = result at fits ⊢
  obtain ⟨enough, kv, pool⟩ := result
  cases enough with
  | false =>
    refine .inl ⟨.inr ?_, rfl⟩
    by_contra room
    cases fits.mpr (Nat.le_of_not_lt room)
  | true =>
    refine .inr ⟨?_, ?_⟩
    · rintro (refused | full)
      · exact long refused
      · exact absurd full (Nat.not_lt.mpr (fits.mp rfl))
    · refine ⟨_, (Plan.scheduleWaiting_steps rest ?_ ?_).scheduled_grows.subset
        (mem_append_right _ mem_cons_self), rfl, positive⟩
      · rfl
      · rfl

/-- Only running requests hold blocks. -/
theorem Valid.tables (valid : s.Valid cells known) :
    (s.allRequests.map Request.seat).flatMap Seat.table =
      (s.running.map Request.seat).flatMap Seat.table := by
  have none : (s.waiting.map Request.seat).flatMap Seat.table = [] := by
    rw [flatMap_eq_nil_iff]
    intro seat member
    obtain ⟨r, inside, same⟩ := mem_map.mp member
    rw [← same]
    exact congrArg KVRequestState.blockIds (valid.waiting r inside).kv
  rw [allRequests, map_append, flatMap_append, none, append_nil]

/-- While nothing runs, no block is in use. -/
theorem Valid.unused (valid : s.Valid cells known) (idle : s.running = []) :
    s.pool.Invariant [] [] := by
  have linked := valid.layout.linked
  rw [valid.tables, idle] at linked
  exact linked

theorem Valid.rehash_going (valid : s.Valid cells known) :
    ∀ r ∈ s.rehash.waiting, r.isFinished = false := by
  intro r member
  obtain ⟨old, inside, _, status⟩ := mem_rehash member
  rw [Request.isFinished, status]
  exact valid.not_finished (mem_append_right _ inside)

/-- Prefix hits and what is fed behind them are tokens of the request. -/
theorem fed_le (s : Scheduler M) (budget : Nat) (start : r.numComputedTokens = 0) :
    s.hitTokens r + Plan.wanted s.cfg budget r (s.hitTokens r) ≤ r.nTokens := by
  have hits : s.hitTokens r ≤ r.nTokens := by
    rw [hitTokens, Plan.lookup, if_pos start]
    exact s.pool.getComputedBlocks_length_le _ _
  have most := Plan.wanted_le s.cfg budget r (s.hitTokens r)
  omega

end Scheduler

theorem Engine.spoil_length (slots : List BatchToken) (cells : Cells M) :
    (spoil cells slots).length = cells.length := by
  induction slots generalizing cells with
  | nil => rfl
  | cons token slots ih =>
    refine (ih _).trans ?_
    dsimp only
    split
    · rfl
    · exact length_set

theorem Batch.write_length (batch : Batch) (cells : Cells M) :
    (batch.write cells).length = cells.length := by
  unfold write
  induction batch.tokens generalizing cells with
  | nil => rfl
  | cons token tokens ih =>
    refine (ih _).trans ?_
    unfold writeToken
    dsimp only
    split
    · rfl
    · exact length_set

namespace Engine

theorem step_cells_length (e : Engine M) (input : StepInput) :
    (handle (e.step input)).cells.length = e.cells.length := by
  have handled := congrArg Ambient.cells (handle_ambient (e.step input))
  have ingested := congrArg Ambient.cells e.ingest_ambient
  change (handle (e.step input)).cells = (e.ingest.stepBody input).1.cells at handled
  change e.ingest.cells = e.cells at ingested
  rw [handled, ← ingested]
  rcases e.ingest.stepBody_ambient input with same | written
  · exact congrArg List.length (congrArg Ambient.cells same)
  refine (congrArg List.length (congrArg Ambient.cells written)).trans ?_
  change (Engine.written _ _ _).length = _
  unfold Engine.written
  dsimp only
  split
  · exact spoil_length _ _
  · exact Batch.write_length _ _

theorem run_cells_length (M : Model) (cfg : EngineConfig) (actions : List Action) :
    (run M cfg actions).cells.length = cfg.numBlocks * cfg.blockSize := by
  induction actions using List.reverseRecOn with
  | nil => exact length_replicate
  | append_singleton actions action ih =>
    rw [run_concat]
    rcases (run M cfg actions).act_cases action with ⟨input, _, _, stepped⟩ | ⟨_, idle⟩
    · rw [stepped, step_cells_length, ih]
    · rw [idle.cells, ih]

theorem run_numBlocks (M : Model) (cfg : EngineConfig) (actions : List Action) :
    (run M cfg actions).sched.pool.numBlocks = cfg.numBlocks := by
  have inv := run_invariant M cfg actions
  have sized := inv.sched.layout.sized
  have size : (run M cfg actions).sched.pool.blockSize = cfg.blockSize := inv.blockSize
  rw [run_cells_length, size] at sized
  exact (Nat.eq_of_mul_eq_mul_right cfg.blockSize_pos sized).symm

/-- No block is leaked or freed twice: at any moment of a run a block is counted once for each
place in a table of a running request, and the free list has each of the other blocks once. -/
theorem run_blocks_owned (M : Model) (cfg : EngineConfig) (actions : List Action) :
    let s := (run M cfg actions).sched
    (∀ index, s.pool.refCount index = (s.running.flatMap (·.kv.blockIds)).count index) ∧
      ∃ indices, s.pool.free.Represents indices ∧ indices.Nodup ∧ ∀ index, index ∈ indices ↔
        index < cfg.numBlocks ∧ ∀ r ∈ s.running, index ∉ r.kv.blockIds := by
  intro s
  have valid := (run_invariant M cfg actions).sched
  have owned := valid.layout.linked
  rw [valid.tables, flatMap_map] at owned
  obtain ⟨indices, represents, once, free⟩ := owned.linked
  rw [append_nil] at once free
  refine ⟨owned.counted, indices, represents, once, fun index => ?_⟩
  rw [free, owned.counted, count_eq_zero, mem_flatMap, run_numBlocks]
  simp only [not_exists, not_and]
  rfl

variable {service : Service M} {known : Registration → Prop} {e : Engine M} {ids : List Nat}

theorem finish_done (going : r.isFinished = false) (status : RequestStatus) (why : FinishReason)
    (error : String) :
    ∃ last, (e.finish r status why error).done = e.done ++ [last] ∧ last.id = r.id ∧
      last.out = (r.close status why error).out := by
  unfold finish Scheduler.finishRequest
  rw [going, if_neg (by decide)]
  dsimp only
  split
  · exact ⟨_, rfl, rfl, rfl⟩
  · exact ⟨_, rfl, rfl, rfl⟩

theorem finishAbort_absent {id : Nat} (absent : id ∉ e.sched.order) : e.finishAbort id = e := by
  have found : e.sched.allRequests.find? (fun r => r.id = id) = none := by
    rw [find?_eq_none]
    intro r member same
    exact absent (mem_map.mpr ⟨r, member, of_decide_eq_true same⟩)
  rw [finishAbort, found]

theorem finishAborts_absent (absent : ∀ id ∈ ids, id ∉ e.sched.order) :
    ids.foldl finishAbort e = e := by
  induction ids with
  | nil => rfl
  | cons id ids ih =>
    rw [foldl_cons, finishAbort_absent (absent id mem_cons_self)]
    exact ih (fun id later => absent id (mem_cons_of_mem _ later))

/-- An abort that names a live request ends it. -/
theorem finishAborts_present (valid : e.sched.Valid e.cells known) {id : Nat} (listed : id ∈ ids)
    (live : id ∈ e.sched.order) :
    e.done.length < (ids.foldl finishAbort e).done.length := by
  induction ids with
  | nil => cases listed
  | cons head ids ih =>
    rw [foldl_cons]
    by_cases present : head ∈ e.sched.order
    · obtain ⟨r, found⟩ : ∃ r, e.sched.allRequests.find? (fun r => r.id = head) = some r := by
        rw [← Option.isSome_iff_exists, find?_isSome]
        obtain ⟨r, member, same⟩ := mem_map.mp present
        exact ⟨r, member, decide_eq_true same⟩
      obtain ⟨last, done, _⟩ := finish_done (e := e)
        (valid.not_finished (mem_of_find?_eq_some found)) .finishedAborted .abort ""
      have ended : (e.finishAbort head).done = e.done ++ [last] := by
        rw [finishAbort, found]
        exact done
      have later := (done_frame.foldl done_frame.finishAbort ids (e.finishAbort head)).length_le
      rw [ended, length_append] at later
      exact later
    · rw [finishAbort_absent present]
      rcases mem_cons.mp listed with here | later
      · exact (present (here ▸ live)).elim
      · exact ih later

/-- The requests that have ended with this error. -/
def failedWith (e : Engine M) (error : String) : List Nat :=
  (e.done.filter (fun r => r.out.getLast?.any (fun chunk => chunk.error = error))).map Request.id

theorem finish_failedWith (going : r.isFinished = false) (status : RequestStatus)
    (why : FinishReason) (error text : String) :
    (e.finish r status why error).failedWith text =
      e.failedWith text ++ if error = text then [r.id] else [] := by
  obtain ⟨last, done, id, out⟩ := finish_done (e := e) going status why error
  have here : last.out.getLast?.any (fun chunk => chunk.error = text) = decide (error = text) := by
    rw [out, Request.close, getLast?_concat, Option.any_some]
  rw [failedWith, failedWith, done, filter_append, map_append, filter_singleton, here]
  by_cases same : error = text
  · simp [same, id]
  · simp [same]

/-- The error of the requests that are failed because nothing can be scheduled. -/
def unfitError : String := "request does not fit in the KV cache"

section

variable (idle : e.sched.running = []) (going : ∀ r ∈ e.sched.waiting, r.isFinished = false)

include idle going

/-- While nothing runs, the fallback of `step` fails every request that waits and has never
run. -/
theorem failUnschedulable_idle :
    e.failUnschedulable.failedWith unfitError = e.failedWith unfitError ++
      (e.sched.waiting.filter (fun r => r.status = .waiting)).map Request.id := by
  unfold failUnschedulable Scheduler.allRequests
  rw [idle, nil_append]
  generalize e.sched.waiting = queue at going
  induction queue generalizing e with
  | nil => simp
  | cons r queue ih =>
    rw [foldl_cons]
    have first := going r mem_cons_self
    have later : ∀ r ∈ queue, r.isFinished = false :=
      fun r member => going r (mem_cons_of_mem _ member)
    by_cases waits : r.status = .waiting
    · rw [if_pos ⟨waits, by rw [idle]; rfl⟩, ih ?_ later, finish_failedWith first,
        if_pos (show "request does not fit in the KV cache" = unfitError from rfl)]
      · simp [waits]
      · exact subset_nil.mp (idle ▸ finish_subset e r _ _ _)
    · rw [if_neg (fun both => waits both.1), ih idle later]
      simp [waits]

theorem failUnschedulable_grows {r : Request M} (member : r ∈ e.sched.waiting)
    (waits : r.status = .waiting) :
    e.done.length < e.failUnschedulable.done.length := by
  have failed := failUnschedulable_idle idle going
  have kept := done_frame.failUnschedulable e
  refine Nat.lt_of_le_of_ne kept.length_le (fun same => ?_)
  rw [failedWith, failedWith, kept.eq_of_length same, self_eq_append_right,
    map_eq_nil_iff, filter_eq_nil_iff] at failed
  exact failed r member (decide_eq_true waits)

end

theorem failUnschedulable_nobody
    (nobody : ∀ r ∈ e.sched.allRequests, r.status = .waiting → e.sched.running ≠ []) :
    e.failUnschedulable = e := by
  unfold failUnschedulable
  generalize e.sched.allRequests = queue at nobody
  induction queue with
  | nil => rfl
  | cons r queue ih =>
    rw [foldl_cons, if_neg (fun both => nobody r mem_cons_self both.1
      (eq_nil_of_length_eq_zero both.2))]
    exact ih (fun r later => nobody r (mem_cons_of_mem _ later))

/-- A step schedules a token, preempts a request or finishes one. -/
def Progresses (e : Engine M) (input : StepInput) : Prop :=
  (∃ entry ∈ e.ingest.sched.schedule.1.scheduled, 0 < entry.nNewTokens) ∨
    e.ingest.sched.schedule.1.preempted ≠ [] ∨ e.done.length < (e.step input).1.done.length

/-- Every request has been preempted, and without chunked prefill the first one has grown
beyond the token budget. -/
structure Stuck (e : Engine M) : Prop where
  fresh : e.newRequests = []
  aborts : ∀ id ∈ e.aborts, id ∉ e.sched.order
  idle : e.sched.running = []
  preempted : ∀ r ∈ e.sched.waiting, r.status = .preempted
  unchunked : e.sched.cfg.enableChunkedPrefill = false
  long : ∃ first rest, e.sched.waiting = first :: rest ∧
    e.sched.cfg.maxNumBatchedTokens < Plan.chunk e.sched.cfg first (e.sched.hitTokens first)

/-- A step whose schedule is empty only fails requests. -/
theorem stepBody_unschedulable {sched : Scheduler M} (some : e.sched.hasRequests = true)
    (nothing : e.sched.schedule = ({}, sched)) (input : StepInput) :
    e.stepBody input = (failUnschedulable { e with sched := sched }, .ok false) := by
  unfold stepBody
  rw [if_neg (by rw [some]; decide), nothing]
  rfl

theorem Stuck.stops (stuck : e.Stuck) (inv : e.Invariant service known)
    (sized : ∀ r ∈ e.sched.allRequests, 0 < r.nTokens) (seats : 0 < e.sched.cfg.maxNumSeqs)
    (budget : 0 < e.sched.cfg.maxNumBatchedTokens) (input : StepInput) :
    ¬ e.Progresses input := by
  have taken : e.taken.sched = e.sched := by rw [Engine.taken, stuck.fresh]; rfl
  have ingested : e.ingest = e.taken :=
    finishAborts_absent (e := e.taken) (taken.symm ▸ stuck.aborts)
  obtain ⟨first, rest, queue, long⟩ := stuck.long
  have inside : first ∈ e.sched.waiting := by rw [queue]; exact mem_cons_self
  rcases Scheduler.schedule_head stuck.idle (inv.sched.unused stuck.idle) inv.sched.layout.size queue
      (inv.sched.waiting first inside) (sized first (mem_append_right _ inside)) seats budget with
    ⟨_, nothing⟩ | ⟨admitted, _⟩
  · have body := stepBody_unschedulable (e := e.ingest) (by
      rw [ingested, taken, Scheduler.hasRequests, queue]
      rfl) (by rw [ingested, taken]; exact nothing) input
    have unchanged := @failUnschedulable_nobody M { e.ingest with sched := e.sched.rehash } (by
      intro r member waits
      change r ∈ e.sched.rehash.allRequests at member
      rw [Scheduler.allRequests, Scheduler.rehash_fields, stuck.idle, nil_append] at member
      obtain ⟨old, inside, _, status⟩ := Scheduler.mem_rehash member
      rw [status, stuck.preempted old inside] at waits
      cases waits)
    rw [unchanged] at body
    rw [Progresses, step, body, ingested, taken, nothing]
    rintro (⟨_, member, _⟩ | preempted | more)
    · cases member
    · exact preempted rfl
    · exact Nat.lt_irrefl _ more
  · exact fun _ => admitted (.inl ⟨stuck.unchunked, long⟩)

/-- Every other step with a request to serve makes progress. -/
theorem Invariant.progresses (inv : e.Invariant service known)
    (due : ∀ r ∈ e.sched.running, r.Due)
    (sized : ∀ r ∈ e.newRequests ++ e.sched.allRequests,
      0 < r.nTokens ∧ r.nTokens ≤ e.sched.pool.numBlocks * e.sched.pool.blockSize)
    (seats : 0 < e.sched.cfg.maxNumSeqs) (budget : 0 < e.sched.cfg.maxNumBatchedTokens)
    (some : e.sched.allRequests ≠ []) (moves : ¬ e.Stuck) (input : StepInput) :
    e.Progresses input := by
  have ended := e.ingest.stepBody_done input
  have started := inv.ingest.1
  by_cases aborted : ∃ id ∈ e.aborts, id ∈ e.taken.sched.order
  · obtain ⟨id, listed, live⟩ := aborted
    have more := finishAborts_present inv.taken.sched listed live
    exact .inr (.inr (Nat.lt_of_lt_of_le more ended.length_le))
  · have absent : ∀ id ∈ e.aborts, id ∉ e.taken.sched.order :=
      fun id listed live => aborted ⟨id, listed, live⟩
    have ingested : e.ingest = e.taken := finishAborts_absent absent
    have running : e.ingest.sched.running = e.sched.running := by rw [ingested, taken_fields]
    have cfg : e.ingest.sched.cfg = e.sched.cfg := by rw [ingested, taken_fields]
    rw [← cfg] at seats budget
    cases first : e.ingest.sched.running with
    | cons head rest =>
      have late := due head (by rw [← running, first]; exact mem_cons_self)
      rcases Scheduler.schedule_running started.sched.unique first late budget with
        ⟨entry, member, _, positive⟩ | preempted
      · exact .inl ⟨entry, member, positive⟩
      · exact .inr (.inl preempted)
    | nil =>
      have joined : e.ingest.sched.waiting.Perm (e.newRequests ++ e.sched.allRequests) := by
        have all := (inv.addRequests _ rfl).2
        change e.taken.sched.allRequests.Perm _ at all
        rw [← ingested, Scheduler.allRequests, first] at all
        exact all
      cases queue : e.ingest.sched.waiting with
      | nil =>
        rw [queue] at joined
        exact (some (append_eq_nil_iff.mp joined.nil_eq.symm).2).elim
      | cons head rest =>
        rw [queue] at joined
        have inside : head ∈ e.ingest.sched.waiting := by rw [queue]; exact mem_cons_self
        obtain ⟨long, room⟩ := sized head (joined.mem_iff.mp mem_cons_self)
        rcases Scheduler.schedule_head first (started.sched.unused first)
            started.sched.layout.size queue (started.sched.waiting head inside) long seats
            budget with ⟨refused, nothing⟩ | ⟨_, entry, member, _, positive⟩
        · have body := stepBody_unschedulable (by rw [Scheduler.hasRequests, queue]; rfl) nothing
            input
          by_cases waits : ∃ r ∈ e.ingest.sched.waiting, r.status = .waiting
          · obtain ⟨r, member, waits⟩ := waits
            obtain ⟨new, there, _, status⟩ := Scheduler.rehash_mem member
            have more := @failUnschedulable_grows M
              { e.ingest with sched := e.ingest.sched.rehash }
              (by rw [Scheduler.rehash_fields]; exact first) started.sched.rehash_going new there
              (status.trans waits)
            rw [Progresses, step, body]
            rw [ingested] at more ⊢
            exact .inr (.inr more)
          · have fresh : e.newRequests = [] := by
              by_contra some
              obtain ⟨r, member⟩ := exists_mem_of_ne_nil _ some
              refine waits ⟨r, ?_, (inv.new r member).fields.1⟩
              rw [queue]
              exact joined.mem_iff.mpr (mem_append_left _ member)
            have same : e.ingest.sched = e.sched := by
              rw [ingested, Engine.taken, fresh]
              rfl
            rw [ingested.symm, same] at absent
            rw [same] at first queue inside refused waits
            have queued := inv.sched.waiting head inside
            obtain ⟨unchunked, large⟩ : e.sched.cfg.enableChunkedPrefill = false ∧
                e.sched.cfg.maxNumBatchedTokens <
                  Plan.chunk e.sched.cfg head (e.sched.hitTokens head) := by
              rcases refused with unchunked | full
              · exact unchunked
              · have fed := e.sched.fed_le e.sched.cfg.maxNumBatchedTokens queued.computed
                omega
            refine False.elim (moves ⟨fresh, absent, first, ?_, unchunked, head, rest, queue,
              large⟩)
            intro r member
            rcases (inv.sched.waiting r member).status with status | status
            · exact (waits ⟨r, member, status⟩).elim
            · exact status
        · exact .inl ⟨entry, member, positive⟩

/-- While requests remain, every step makes progress exactly when the engine is not stuck. -/
theorem run_progresses (M : Model) (cfg : EngineConfig) (seats : 1 ≤ cfg.sched.maxNumSeqs)
    (budget : 1 ≤ cfg.sched.maxNumBatchedTokens)
    (room : (cfg.maxModelLen + cfg.blockSize - 1) / cfg.blockSize ≤ cfg.numBlocks)
    (actions : List Action) (alive : (run M cfg actions).crashed = false)
    (some : (run M cfg actions).sched.allRequests ≠ []) (input : StepInput) :
    (run M cfg actions).Progresses input ↔ ¬ (run M cfg actions).Stuck := by
  have inv := run_invariant M cfg actions
  have config := run_schedCfg M cfg actions
  have size : (run M cfg actions).sched.pool.blockSize = cfg.blockSize := inv.blockSize
  have sized : ∀ r ∈ (run M cfg actions).newRequests ++ (run M cfg actions).sched.allRequests,
      0 < r.nTokens ∧ r.nTokens ≤ (run M cfg actions).sched.pool.numBlocks *
        (run M cfg actions).sched.pool.blockSize := by
    intro r member
    have fits := run_sized M cfg actions r member
    rw [run_numBlocks, size]
    exact ⟨fits.some, fits.most.trans ((ceil_le cfg.blockSize_pos).mp room)⟩
  rw [← config] at seats budget
  refine ⟨fun progress stuck => ?_, fun moves => ?_⟩
  · exact stuck.stops inv (fun r member => (sized r (mem_append_right _ member)).1) seats budget
      input progress
  · exact inv.progresses (run_due M cfg actions alive) sized seats budget some moves input

/-- Without chunked prefill and with a budget of two tokens. -/
def unchunkedConfig : EngineConfig where
  maxModelLen := 4
  blockSize := 1
  blockSize_pos := Nat.one_pos
  numBlocks := 4
  enablePrefixCaching := false
  sched := { maxNumBatchedTokens := 2, maxModelLen := 4, enableChunkedPrefill := false }

/-- The second request is preempted at three tokens and then waits alone. -/
def stuckRun : List Action :=
  [.submit [7] {} {}, .submit [8] {} {}, .step {}, .step {}, .step {}, .step {}]

/-- What scheduling reads and writes of a request. -/
structure Place where
  id : Nat
  status : RequestStatus
  tokens : List Token
  computed : Nat
  kv : KVRequestState
  hashes : List UInt64
deriving DecidableEq

def place (r : Request M) : Place :=
  ⟨r.id, r.status, r.tokens, r.numComputedTokens, r.kv, r.blockHashes⟩

/-- The request that is left never runs again: a step leaves everything as it was. -/
theorem run_progresses_stuck :
    let e := run Model.counting unchunkedConfig stuckRun
    e.sched.order = [2] ∧ ¬ e.Progresses {} ∧ (e.step {}).1.sched.pool = e.sched.pool ∧
      (e.step {}).1.sched.allRequests.map place = e.sched.allRequests.map place ∧
      (e.step {}).1.done.map Request.id = e.done.map Request.id := by
  unfold Progresses
  decide +kernel

/-- The step before it still finishes the first request. -/
theorem run_progresses_moving :
    (run Model.counting unchunkedConfig (stuckRun.take 4)).Progresses {} := by
  apply (run_progresses Model.counting unchunkedConfig (by decide) (by decide) (by decide)
    (stuckRun.take 4) (by decide +kernel) (ne_nil_of_length_pos (by decide +kernel)) {}).mpr
  intro stuck
  have busy : (run Model.counting unchunkedConfig (stuckRun.take 4)).sched.running.length = 2 := by
    decide +kernel
  rw [stuck.idle] at busy
  cases busy

end Engine

end Iian
