import Iian.CellWrites
import Iian.ScheduleSteps

/- A call of `schedule` keeps the layout of the cache, changes no request beyond its place
in it, and gives every scheduled request the blocks of the tokens it is to be fed. -/
namespace Iian

open List Lib

variable {M : Model}

namespace Request

/-- A request without its place in the scheduler and in the cache. -/
def content (r : Request M) : Request M :=
  { r with
    status := .waiting
    kv := {}
    blockHashes := []
    numComputedTokens := 0
    numCachedTokens := 0
    numPreemptions := 0 }

/-- A waiting request holds no blocks. -/
structure Queued (r : Request M) : Prop where
  status : r.status = .waiting ∨ r.status = .preempted
  kv : r.kv = {}
  computed : r.numComputedTokens = 0

/-- A scheduled request has blocks for the tokens it is to be fed; drafts are fed only
behind all of its own tokens. -/
structure Ready (size : Nat) (r : Request M) (entry : ScheduledRequest) : Prop where
  real : entry.nSpec < entry.nNewTokens
  room : r.numComputedTokens + entry.nNewTokens ≤ r.kv.blockIds.length * size
  tokens : r.numComputedTokens + entry.nNewTokens ≤ r.nTokens + entry.nSpec
  drafts : entry.nSpec ≤ r.specTokens.length
  whole : 0 < entry.nSpec → r.numComputedTokens + entry.nNewTokens = r.nTokens + entry.nSpec

theorem Ready.fed_bound {size : Nat} {r : Request M} {entry : ScheduledRequest}
    (ready : r.Ready size entry) : r.numComputedTokens + entry.nNewTokens ≤ r.fed.length := by
  have tokens := ready.tokens
  have drafts := ready.drafts
  rw [fed, length_append]
  change _ ≤ r.nTokens + _
  omega

end Request

/-- Every block chain of a live request is known. -/
def Scheduler.Knows (s : Scheduler M) (known : Registration → Prop) : Prop :=
  ∀ r ∈ s.allRequests, ∀ entry, Registration.PartOf entry r.opts.cacheSalt r.tokens → known entry

structure Scheduler.Valid (s : Scheduler M) (cells : Cells M) (known : Registration → Prop) :
    Prop where
  unique : (s.allRequests.map Request.id).Nodup
  running : ∀ r ∈ s.running, r.status = .running
  waiting : ∀ r ∈ s.waiting, r.Queued
  layout : Layout s.pool cells (s.allRequests.map Request.seat) known

abbrev Scheduler.Exact (s : Scheduler M) (cells : Cells M) : Prop :=
  Iian.Exact s.pool cells (s.allRequests.map Request.seat)

variable {cells : Cells M} {s : Scheduler M} {known : Registration → Prop}

theorem Exact.perm {pool : BlockPool} {seats other : List Seat} (exact : Exact pool cells seats)
    (same : seats.Perm other) : Exact pool cells other :=
  ⟨exact.sound, fun seat member => exact.shared seat (same.mem_iff.mpr member)⟩

namespace Scheduler

theorem insertWaiting_perm (req : Request M) (queue : List (Request M)) :
    (insertWaiting req queue).Perm (req :: queue) := by
  induction queue with
  | nil => exact .refl _
  | cons other rest ih =>
    rw [insertWaiting]
    split
    · exact .refl _
    · exact (ih.cons other).trans (.swap req other rest)

/-- The live requests of `s` with `r` in front, and of `next` with `fresh` in its place. -/
structure Changes (s next : Scheduler M) (r fresh : Request M) (rest : List (Request M)) :
    Prop where
  before : s.allRequests.Perm (r :: rest)
  after : next.allRequests.Perm (fresh :: rest)

variable {s next : Scheduler M} {r fresh : Request M} {rest : List (Request M)}
  {cells : Cells M} {known : Registration → Prop}

section

variable (changes : Changes s next r fresh rest)
include changes

theorem Changes.layout (valid : Layout s.pool cells (s.allRequests.map Request.seat) known) :
    Layout s.pool cells (r.seat :: rest.map Request.seat) known :=
  valid.perm (changes.before.map Request.seat)

theorem Changes.layout_next
    (valid : Layout next.pool cells (fresh.seat :: rest.map Request.seat) known) :
    Layout next.pool cells (next.allRequests.map Request.seat) known :=
  valid.perm (changes.after.map Request.seat).symm

theorem Changes.exact (exact : s.Exact cells) :
    Iian.Exact s.pool cells (r.seat :: rest.map Request.seat) :=
  exact.perm (changes.before.map Request.seat)

theorem Changes.exact_next
    (exact : Iian.Exact next.pool cells (fresh.seat :: rest.map Request.seat)) : next.Exact cells :=
  exact.perm (changes.after.map Request.seat).symm

theorem Changes.map {β : Type} {f : Request M → β} (same : f fresh = f r) :
    (next.allRequests.map f).Perm (s.allRequests.map f) := by
  have after := changes.after.map f
  rw [map_cons, same, ← map_cons] at after
  exact after.trans (changes.before.map f).symm

end

theorem store_changes (unique : (s.allRequests.map Request.id).Nodup) (member : r ∈ s.running)
    (pool : BlockPool) (fresh : Request M) (same : fresh.id = r.id) :
    Changes s ({ s with pool := pool }.store fresh) r fresh
      (Keyed.remove Request.id r.id s.running ++ s.waiting) := by
  rw [allRequests, map_append, nodup_append] at unique
  exact ⟨(Keyed.perm_cons_remove unique.1 member).append_right _,
    (Keyed.replace_perm unique.1 member same).append_right _⟩

theorem preempt_waiting (s : Scheduler M) (r : Request M) :
    (s.preempt r).waiting.Perm (r.preempted (s.pool.freeState r.kv).1 :: s.waiting) := by
  unfold preempt
  dsimp only
  cases s.cfg.policy with
  | fcfs => exact .refl _
  | priority => exact insertWaiting_perm _ _

theorem preempt_running (s : Scheduler M) (r : Request M) :
    (s.preempt r).running = Keyed.remove Request.id r.id s.running := by
  unfold preempt
  dsimp only
  cases s.cfg.policy <;> rfl

theorem preempt_changes (unique : (s.allRequests.map Request.id).Nodup) (member : r ∈ s.running) :
    Changes s (s.preempt r) r (r.preempted (s.pool.freeState r.kv).1)
      (Keyed.remove Request.id r.id s.running ++ s.waiting) := by
  rw [allRequests, map_append, nodup_append] at unique
  refine ⟨(Keyed.perm_cons_remove unique.1 member).append_right _, ?_⟩
  rw [allRequests, preempt_running]
  exact ((preempt_waiting s r).append_left _).trans perm_middle

theorem preempt_pool (s : Scheduler M) (r : Request M) :
    (s.preempt r).pool = (s.pool.freeState r.kv).2 := by
  unfold preempt
  dsimp only
  cases s.cfg.policy <;> rfl

theorem head_changes (queue : s.waiting = r :: rest) (fresh : Request M) :
    Changes s { s with waiting := fresh :: rest } r fresh (s.running ++ rest) := by
  refine ⟨?_, perm_middle⟩
  rw [allRequests, queue]
  exact perm_middle

theorem start_changes (queue : s.waiting = r :: rest) (pool : BlockPool) (fresh : Request M) :
    Changes s { s with pool := pool, waiting := rest, running := s.running ++ [fresh] } r fresh
      (s.running ++ rest) := by
  refine ⟨?_, ?_⟩
  · rw [allRequests, queue]
    exact perm_middle
  · change ((s.running ++ [fresh]) ++ rest).Perm _
    rw [append_assoc]
    exact perm_middle

end Scheduler

namespace Plan

theorem wanted_le (cfg : SchedulerConfig) (budget : Nat) (req : Request M) (nComputed : Nat) :
    wanted cfg budget req nComputed ≤ req.nTokens - nComputed := by
  unfold wanted chunk
  dsimp only
  split <;> omega

theorem wantedSpec_le (cfg : SchedulerConfig) (budget : Nat) (req : Request M) (nNew : Nat) :
    wantedSpec cfg budget req nNew ≤ req.specTokens.length := by
  unfold wantedSpec
  dsimp only
  split
  · split <;> split <;> omega
  · exact Nat.zero_le _

theorem wantedSpec_whole {cfg : SchedulerConfig} {budget nNew : Nat} {req : Request M}
    (positive : 0 < wantedSpec cfg budget req nNew) :
    nNew = req.nTokens - req.numComputedTokens := by
  unfold wantedSpec at positive
  split at positive
  · rename_i drafts
    exact drafts.2
  · omega

theorem lookup_fields (pool : BlockPool) (req : Request M) :
    (lookup pool req).1 = { req with blockHashes := (lookup pool req).1.blockHashes } := by
  unfold lookup
  split <;> rfl

theorem lookup_content (pool : BlockPool) (req : Request M) :
    (lookup pool req).1.content = req.content := by
  rw [lookup_fields]
  rfl

theorem lookup_hashes {pool : BlockPool} {req : Request M}
    (hashes : HashesOf pool.blockSize req.opts.cacheSalt req.tokens req.blockHashes) :
    HashesOf pool.blockSize req.opts.cacheSalt req.tokens (lookup pool req).1.blockHashes := by
  unfold lookup
  split
  · exact hashes.update
  · exact hashes

theorem Step.content {plan next : Plan M} (step : Step plan next)
    (unique : (plan.sched.allRequests.map Request.id).Nodup) :
    (next.sched.allRequests.map Request.content).Perm
      (plan.sched.allRequests.map Request.content) := by
  cases step with
  | @extend req kv pool _ _ member =>
    exact (Scheduler.store_changes unique member pool { req with kv := kv } rfl).map rfl
  | preempt last absent =>
    exact (Scheduler.preempt_changes unique (mem_of_getLast? last)).map rfl
  | rehash queue => exact (Scheduler.head_changes queue _).map (lookup_content _ _)
  | start queue =>
    exact (Scheduler.start_changes queue _ _).map rfl

/-- The state of a call of `schedule`: the scheduler is sound, and every scheduled request
is still running and has its blocks. -/
structure Valid (plan : Plan M) (cells : Cells M) (known : Registration → Prop) (size : Nat) :
    Prop where
  sched : plan.sched.Valid cells known
  blockSize : plan.sched.pool.blockSize = size
  unique : (plan.out.scheduled.map ScheduledRequest.req).Nodup
  ready : ∀ entry ∈ plan.out.scheduled, ∃ r ∈ plan.sched.running, r.id = entry.req ∧
    r.Ready size entry

variable {plan next : Plan M} {cells : Cells M} {known : Registration → Prop} {size : Nat}

/-- A step leaves the scheduler sound, and the contents of the cells exact. -/
structure Sound (plan next : Plan M) (cells : Cells M) (known : Registration → Prop) : Prop where
  layout : Layout next.sched.pool cells (next.sched.allRequests.map Request.seat) known
  blockSize : next.sched.pool.blockSize = plan.sched.pool.blockSize
  exact : CollisionFree plan.sched.pool.blockSize known → plan.sched.Knows known →
    plan.sched.Exact cells → next.sched.Exact cells

section

variable (step : Step plan next)
include step

theorem Step.sound (valid : plan.sched.Valid cells known) : Sound plan next cells known := by
  cases step with
  | @extend req kv pool nNew nSpec member absent amount positive drafts allocated =>
    have changes := Scheduler.store_changes valid.unique member pool { req with kv := kv } rfl
    obtain ⟨layout, _, blockSize, exact⟩ := (changes.layout valid.layout).extend allocated
    exact ⟨changes.layout_next layout, blockSize,
      fun _ _ old => changes.exact_next (exact (changes.exact old))⟩
  | @preempt victim last absent =>
    have changes := Scheduler.preempt_changes valid.unique (mem_of_getLast? last)
    have seated := changes.layout valid.layout
    obtain ⟨fresh, shape, blockSize, layout, exact⟩ := seated.release
    have hashes := (seated.valid _ mem_cons_self).hashes
    rw [← blockSize] at hashes
    change plan.sched.pool.freeState victim.kv = _ at shape
    have pool := Scheduler.preempt_pool plan.sched victim
    rw [shape] at changes pool
    refine ⟨?_, ?_, ?_⟩
    · apply changes.layout_next
      rw [pool]
      exact layout.insert rfl rfl hashes
    · change (plan.sched.preempt victim).pool.blockSize = _
      rw [pool]
      exact blockSize
    · intro _ _ old
      apply changes.exact_next
      rw [pool]
      exact Layout.insertExact (exact (changes.exact old)) rfl
  | @rehash first rest queue =>
    have changes := Scheduler.head_changes queue (lookup plan.sched.pool first).1
    have seated := changes.layout valid.layout
    have old := seated.valid _ mem_cons_self
    have fields := lookup_fields plan.sched.pool first
    have hashes := lookup_hashes old.hashes
    generalize (lookup plan.sched.pool first).1.blockHashes = fresh at fields hashes
    rw [fields] at changes ⊢
    obtain ⟨layout, exact⟩ := @Layout.revise M plan.sched.pool cells first.seat
      { first.seat with hashes := fresh } _ known seated ⟨rfl, rfl, hashes, prefix_refl _,
        Nat.le_refl _, old.cached, old.fits, rfl⟩
    exact ⟨changes.layout_next layout, rfl,
      fun _ _ sound => changes.exact_next (exact (changes.exact sound))⟩
  | @start old first rest hits kv pool nComputed nNew queue seats preempted found computed amount
      positive whole allocated =>
    have member : first ∈ plan.sched.waiting := by
      rw [queue]
      exact mem_cons_self
    have queued := valid.waiting first member
    have changes := Scheduler.start_changes queue pool (first.admitted kv nComputed)
    have seated := changes.layout valid.layout
    have fetched := lookup_hits found
    rw [if_pos queued.computed] at fetched
    rw [computedAt, if_pos queued.computed, fetched] at computed
    rw [fetched] at allocated
    have entered := seated.enter (congrArg KVRequestState.blockIds queued.kv)
      (seated.valid _ mem_cons_self).hashes allocated
    obtain ⟨layout, _, blockSize, exact⟩ := entered
    have seat : (first.admitted kv nComputed).seat =
        { first.seat with
          kv := kv
          computed := (plan.sched.pool.getComputedBlocks first.tokens first.blockHashes).length *
            plan.sched.pool.blockSize } := by
      rw [← computed]
      rfl
    refine ⟨changes.layout_next ?_, blockSize, ?_⟩
    · rw [seat]
      exact layout
    intro free knows sound
    apply changes.exact_next
    rw [seat]
    exact exact free (knows first (mem_append_right _ member)) (changes.exact sound)

/-- Requests are told apart by their contents. -/
theorem Step.ids (unique : (plan.sched.allRequests.map Request.id).Nodup) :
    (next.sched.allRequests.map Request.id).Perm (plan.sched.allRequests.map Request.id) := by
  have same := (step.content unique).map Request.id
  rw [map_map, map_map] at same
  exact same

theorem Step.running (valid : plan.sched.Valid cells known) :
    ∀ r ∈ next.sched.running, r.status = .running := by
  intro r member
  cases step with
  | @extend req kv pool nNew nSpec inside =>
    obtain ⟨old, there, same⟩ := mem_map.mp member
    dsimp only at same
    split at same
    · rw [← same]
      exact valid.running req inside
    · rw [← same]
      exact valid.running old there
  | @preempt victim last =>
    have same : (plan.preempt victim).sched.running = _ := plan.sched.preempt_running victim
    rw [same] at member
    exact valid.running r (Keyed.mem_remove.mp member).1
  | rehash queue => exact valid.running r member
  | start queue =>
    rcases mem_append.mp member with old | new
    · exact valid.running r old
    · rw [mem_singleton.mp new]
      rfl

theorem Step.waiting (valid : plan.sched.Valid cells known) :
    ∀ r ∈ next.sched.waiting, r.Queued := by
  intro r member
  cases step with
  | extend => exact valid.waiting r member
  | @preempt victim last =>
    rcases mem_cons.mp ((plan.sched.preempt_waiting victim).mem_iff.mp member) with new | old
    · have changes := Scheduler.preempt_changes valid.unique (mem_of_getLast? last)
      obtain ⟨_, shape, _⟩ := (changes.layout valid.layout).release
      rw [new]
      exact ⟨.inr rfl, congrArg Prod.fst shape, rfl⟩
    · exact valid.waiting r old
  | @rehash first rest queue =>
    have old : ∀ other ∈ first :: rest, other.Queued := by
      rw [← queue]
      exact valid.waiting
    rcases mem_cons.mp member with new | kept
    · have queued := old first mem_cons_self
      rw [new, lookup_fields]
      exact ⟨queued.status, queued.kv, queued.computed⟩
    · exact old r (mem_cons_of_mem _ kept)
  | start queue =>
    apply valid.waiting r
    rw [queue]
    exact mem_cons_of_mem _ member

/-- A scheduled request is not touched again. -/
theorem Step.kept {r : Request M} (member : r ∈ plan.sched.running) {entry : ScheduledRequest}
    (scheduled : entry ∈ plan.out.scheduled) (handle : r.id = entry.req) :
    r ∈ next.sched.running := by
  cases step with
  | @extend req kv pool nNew nSpec inside absent =>
    refine mem_map.mpr ⟨r, member, if_neg ?_⟩
    intro same
    exact absent entry scheduled (handle.symm.trans same)
  | @preempt victim last absent =>
    have same : (plan.preempt victim).sched.running = _ := plan.sched.preempt_running victim
    rw [same, Keyed.mem_remove]
    refine ⟨member, ?_⟩
    intro same
    exact absent entry scheduled (handle.symm.trans same)
  | rehash queue => exact member
  | start queue => exact mem_append_left _ member

/-- A step adds at most one request to the plan, with blocks for its tokens. -/
theorem Step.entries (valid : plan.Valid cells known size) :
    next.out.scheduled = plan.out.scheduled ∨ ∃ entry, ∃ r ∈ next.sched.running,
      next.out.scheduled = plan.out.scheduled ++ [entry] ∧ r.id = entry.req ∧
      r.Ready size entry ∧ ∀ old ∈ plan.out.scheduled, old.req ≠ entry.req := by
  cases step with
  | @extend req kv pool nNew nSpec member absent amount positive drafts allocated =>
    have changes := Scheduler.store_changes valid.sched.unique member pool { req with kv := kv } rfl
    obtain ⟨_, room, blockSize, _⟩ := (changes.layout valid.sched.layout).extend allocated
    rw [blockSize, valid.blockSize] at room
    have most := wanted_le plan.sched.cfg plan.budget req req.numComputedTokens
    have few := wantedSpec_le plan.sched.cfg plan.budget req nNew
    have whole := @wantedSpec_whole M plan.sched.cfg plan.budget nNew req
    rw [← amount] at most
    rw [← drafts] at few whole
    refine .inr ⟨_, { req with kv := kv }, mem_map.mpr ⟨req, member, if_pos rfl⟩, rfl, rfl,
      ⟨?_, room, ?_, few, ?_⟩, absent⟩
    · dsimp only
      omega
    · change req.numComputedTokens + (nNew + nSpec) ≤ req.nTokens + nSpec
      omega
    intro some
    have all := whole some
    change req.numComputedTokens + (nNew + nSpec) = req.nTokens + nSpec
    omega
  | preempt last absent => exact .inl rfl
  | rehash queue => exact .inl rfl
  | @start old first rest hits kv pool nComputed nNew queue seats preempted found computed amount
      positive whole allocated =>
    have member : first ∈ plan.sched.waiting := by
      rw [queue]
      exact mem_cons_self
    have queued := valid.sched.waiting first member
    have changes := Scheduler.start_changes queue pool (first.admitted kv nComputed)
    have seated := changes.layout valid.sched.layout
    have fetched := lookup_hits found
    rw [if_pos queued.computed] at fetched
    rw [fetched] at allocated
    obtain ⟨_, room, blockSize, _⟩ := seated.enter (congrArg KVRequestState.blockIds queued.kv)
      (seated.valid _ mem_cons_self).hashes allocated
    rw [blockSize] at room
    have most := wanted_le plan.sched.cfg plan.budget first nComputed
    rw [← amount] at most
    refine .inr ⟨_, first.admitted kv nComputed, mem_append_right _ mem_cons_self, rfl,
      rfl, ⟨positive, ?_, ?_, Nat.zero_le _, ?_⟩, ?_⟩
    · rw [← valid.blockSize]
      exact room
    · change nComputed + nNew ≤ first.nTokens + 0
      omega
    · intro none
      cases none
    intro other scheduled same
    obtain ⟨r, running, handle, _⟩ := valid.ready other scheduled
    have unique := valid.sched.unique
    rw [Scheduler.allRequests, map_append, nodup_append] at unique
    exact unique.2.2 _ (mem_map.mpr ⟨r, running, rfl⟩) _
      (mem_map.mpr ⟨first, member, rfl⟩) (handle.trans same)

theorem Step.valid (valid : plan.Valid cells known size) : next.Valid cells known size := by
  have sound := step.sound valid.sched
  have kept : ∀ entry ∈ plan.out.scheduled, ∃ r ∈ next.sched.running, r.id = entry.req ∧
      r.Ready size entry := by
    intro entry scheduled
    obtain ⟨r, member, handle, ready⟩ := valid.ready entry scheduled
    exact ⟨r, step.kept member scheduled handle, handle, ready⟩
  refine ⟨⟨(step.ids valid.sched.unique).nodup_iff.mpr valid.sched.unique,
    step.running valid.sched, step.waiting valid.sched, sound.layout⟩,
    sound.blockSize.trans valid.blockSize, ?_, ?_⟩
  · rcases step.entries valid with same | ⟨entry, r, _, more, _, _, absent⟩
    · rw [same]
      exact valid.unique
    rw [more, map_append, nodup_append]
    refine ⟨valid.unique, nodup_singleton _, ?_⟩
    intro id old other new
    obtain ⟨before, scheduled, rfl⟩ := mem_map.mp old
    rw [mem_singleton.mp new]
    exact absent before scheduled
  · rcases step.entries valid with same | ⟨entry, r, member, more, handle, ready, _⟩
    · rw [same]
      exact kept
    · rw [more]
      exact forall_mem_append.mpr ⟨kept, forall_mem_singleton.mpr ⟨r, member, handle, ready⟩⟩

theorem Step.cfg : next.sched.cfg = plan.sched.cfg := by
  cases step with
  | extend => rfl
  | preempt => exact preempt_cfg _ _
  | rehash => rfl
  | start => rfl

end

end Plan

theorem Scheduler.Knows.congr {next : Scheduler M} (knows : s.Knows known)
    (content : (next.allRequests.map Request.content).Perm (s.allRequests.map Request.content)) :
    next.Knows known := by
  intro r member
  obtain ⟨old, there, same⟩ := mem_map.mp (content.mem_iff.mp (mem_map.mpr ⟨r, member, rfl⟩))
  have tokens : old.tokens = r.tokens := congrArg (fun r => r.tokens) same
  have salt : old.opts = r.opts := congrArg (fun r => r.opts) same
  rw [← tokens, ← salt]
  exact knows old there

/-- What a call of `schedule` leaves behind. -/
structure Scheduler.Scheduled (s : Scheduler M) (cells : Cells M) (known : Registration → Prop)
    (plan : Plan M) : Prop where
  valid : plan.Valid cells known s.pool.blockSize
  content : (plan.sched.allRequests.map Request.content).Perm (s.allRequests.map Request.content)
  cfg : plan.sched.cfg = s.cfg
  exact : CollisionFree s.pool.blockSize known → s.Knows known → s.Exact cells →
    plan.sched.Exact cells

theorem Scheduler.Valid.steps (valid : s.Valid cells known) {plan : Plan M}
    (steps : Plan.Steps s.start plan) : s.Scheduled cells known plan := by
  induction steps with
  | refl => exact ⟨⟨valid, rfl, by simp, by simp⟩, .refl _, rfl, fun _ _ exact => exact⟩
  | @tail middle next _ step ih =>
    obtain ⟨before, content, cfg, exact⟩ := ih
    refine ⟨step.valid before, (step.content before.sched.unique).trans content,
      step.cfg.trans cfg, ?_⟩
    intro free knows start
    refine (step.sound before.sched).exact ?_ (knows.congr content) (exact free knows start)
    rw [before.blockSize]
    exact free

theorem Scheduler.Valid.schedule (valid : s.Valid cells known) :
    ∃ plan, s.schedule = (plan.out, plan.sched) ∧ s.Scheduled cells known plan := by
  have unique := valid.unique
  rw [allRequests, map_append, nodup_append] at unique
  obtain ⟨plan, shape, steps⟩ := s.schedule_steps unique.1
  exact ⟨plan, shape, valid.steps steps⟩

end Iian
