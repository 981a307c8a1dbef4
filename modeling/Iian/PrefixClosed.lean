import Iian.EvictionOrder
import Iian.QueueOrder

/- The prefix cache is closed under prefixes in every run: the order of eviction is carried
through the scheduler and the engine, and a lookup finds every registered block. -/
namespace Iian

open List Lib

variable {M : Model}

theorem Plan.Step.tailFirst {plan next : Plan M} {cells : Cells M} {known : Registration → Prop}
    (step : Step plan next) (valid : plan.sched.Valid cells known)
    (exact : plan.sched.Exact cells) (tail : plan.sched.pool.TailFirst) :
    next.sched.pool.TailFirst := by
  cases step with
  | @extend req kv pool nNew nSpec member absent amount positive drafts allocated =>
    have changes := Scheduler.store_changes valid.unique member pool { req with kv := kv } rfl
    have inv := (changes.layout valid.layout).linked_cons
    have kept := inv.allocateSlots_tailFirst tail (req.numComputedTokens + (nNew + nSpec)) []
      (by simp)
    change (plan.sched.pool.allocateSlots req.kv _ _).2.2.TailFirst at kept
    rw [allocated] at kept
    exact kept
  | @preempt victim last absent =>
    have changes := Scheduler.preempt_changes valid.unique (mem_of_getLast? last)
    change (plan.sched.preempt victim).pool.TailFirst
    rw [Scheduler.preempt_pool]
    exact (changes.layout valid.layout).release_tailFirst (changes.exact exact) tail
  | rehash queue => exact tail
  | @start old first rest hits kv pool nComputed nNew queue seats preempted found computed amount
      positive whole allocated =>
    have member : first ∈ plan.sched.waiting := by
      rw [queue]
      exact mem_cons_self
    have changes := Scheduler.start_changes queue pool (first.admitted kv nComputed)
    have inv := (changes.layout valid.layout).linked_cons
    have fetched := lookup_hits found
    rw [if_pos (valid.waiting first member).computed] at fetched
    have kept := inv.allocateSlots_tailFirst tail (nComputed + nNew) hits (by
      intro index hit
      rw [fetched] at hit
      exact plan.sched.pool.lt_numBlocks_of_hash (inv.getComputedBlocks_registered hit))
    change (plan.sched.pool.allocateSlots first.kv _ _).2.2.TailFirst at kept
    rw [allocated] at kept
    exact kept

variable {block count : Nat}

namespace Scheduler

variable {s : Scheduler M} {cells : Cells M} {known : Registration → Prop}

theorem Valid.schedule_tailFirst (valid : s.Valid cells known)
    (free : CollisionFree s.pool.blockSize known) (knows : s.Knows known) (exact : s.Exact cells)
    (tail : s.pool.TailFirst) : s.schedule.2.pool.TailFirst := by
  obtain ⟨plan, shape, steps⟩ := s.schedule_steps valid.running_unique
  rw [shape]
  clear shape
  induction steps with
  | refl => exact tail
  | tail earlier step ih =>
    have before := valid.steps earlier
    exact step.tailFirst before.valid.sched (before.exact free knows exact) ih

theorem Fed.commit_tailFirst {entry : ScheduledRequest} {entries : List ScheduledRequest}
    (fed : s.Fed cells known (entry :: entries)) (tail : s.pool.TailFirst) :
    (s.commit entry).pool.TailFirst := by
  unfold Scheduler.commit
  split
  · exact tail
  rename_i r found
  split
  · exact tail
  have member := (mem_of_find found).1
  have split := (store_changes fed.unique member s.pool r rfl).before.map
    (Request.seatAfter (entry :: entries))
  have seated := fed.layout.perm split
  exact seated.linked_cons.cacheBlocks_tailFirst tail _ _ _
    (seated.valid _ mem_cons_self).hashes.update.present

end Scheduler

namespace Engine

variable {service : Service M} {known : Registration → Prop} {e : Engine M}

/-- What a pool rule keeps holds after every run. -/
theorem Serves.run_pool {actions : List Action} (serves : Serves service known actions)
    {holds : BlockPool → Prop} (rule : PoolRule service known holds)
    (start : holds (new M service.cfg).sched.pool) {before : List Action}
    (within : before <+: actions) : holds (run M service.cfg before).sched.pool := by
  induction before using List.reverseRecOn with
  | nil => exact start
  | append_singleton before action ih =>
    have earlier := (prefix_append before [action]).trans within
    have inv := serves.run_invariant earlier
    rw [run_concat]
    rcases (run M service.cfg before).act_cases action with
      ⟨input, same, alive, stepped⟩ | ⟨_, idle⟩
    · rw [same] at within
      obtain ⟨ingested, _, taken⟩ := inv.ingest
      obtain ⟨last, worked⟩ := ingested.stepBody serves.sound
        (inv.ingest_knows (serves.knows _ earlier)) (serves.steady before input within alive)
      rw [stepped]
      exact ((taken.trans worked).trans last.handle.2) holds rule (ih earlier)
    · rw [idle.sched]
      exact ih earlier

/-- Without collisions, all that the engine does to the pool keeps the order of eviction. -/
theorem tailFirst_rule (sound : service.Sound known) (exact : service.exact) :
    PoolRule service known BlockPool.TailFirst where
  schedule {e} inv knows tail := by
    have free : CollisionFree e.sched.pool.blockSize known := by
      rw [inv.blockSize]
      exact sound.free exact
    exact inv.sched.schedule_tailFirst free knows (inv.exact exact) tail
  commits inv knows scheduled tail := by
    obtain ⟨layout, _⟩ := Batch.write_layout inv.sched scheduled
    have fed : Scheduler.Fed _ _ known _ :=
      ⟨inv.sched.unique, inv.sched.running, inv.sched.waiting, layout⟩
    exact (fed.commits knows scheduled.unique scheduled.running scheduled.handle).2.2.2
      (fun s => s.pool.TailFirst) Scheduler.Fed.commit_tailFirst tail
  release inv member tail := by
    have split := (Keyed.perm_cons_remove inv.sched.unique member).map Request.seat
    exact (inv.sched.layout.perm split).release_tailFirst ((inv.exact exact).perm split) tail

/-- In every run without collisions a block is evicted before its parent. -/
theorem run_tailFirst (M : Model) (cfg : EngineConfig) (actions : List Action)
    (free : CollisionFree cfg.blockSize (chains M cfg actions)) :
    (run M cfg actions).sched.pool.TailFirst :=
  (run_serves M cfg actions).run_pool (tailFirst_rule runService_sound free)
    (BlockPool.new_tailFirst _ _ _) (prefix_refl actions)

end Engine

namespace BlockPool

variable {pool : BlockPool} {held : List Nat} {tokens : List Token}

theorem getCachedBlock_of_mem (caching : pool.caching = true) {hash : UInt64}
    (member : (hash, block) ∈ pool.hashToBlock) :
    ∃ hit, pool.getCachedBlock hash (pool.block block).tokens = some hit := by
  unfold getCachedBlock
  rw [if_pos caching]
  have found : ((pool.hashToBlock.filter (fun entry => entry.1 = hash)).find?
      (fun entry => (pool.block entry.2).tokens = (pool.block block).tokens)).isSome := by
    rw [find?_isSome]
    exact ⟨(hash, block), mem_filter.mpr ⟨member, by simp⟩, by simp⟩
  obtain ⟨entry, shape⟩ := Option.isSome_iff_exists.mp found
  exact ⟨entry.2, by rw [shape, Option.map_some]⟩

/-- The lookup goes on as long as it hits. -/
theorem cachedRun_long {start : Nat} {hashes : List UInt64}
    (hits : ∀ offset < count, ∃ hash hit, hashes[offset]? = some hash ∧
      pool.getCachedBlock hash (blockTokens pool.blockSize tokens (start + offset)) = some hit) :
    count ≤ (cachedRun pool tokens start hashes).length := by
  induction count generalizing start hashes with
  | zero => exact Nat.zero_le _
  | succ count ih =>
    obtain ⟨hash, hit, keyed, cached⟩ := hits 0 (Nat.zero_lt_succ _)
    cases hashes with
    | nil => cases keyed
    | cons first rest =>
      rw [getElem?_cons_zero, Option.some.injEq] at keyed
      subst keyed
      rw [cachedRun, ← Nat.add_zero start, cached]
      refine Nat.succ_le_succ (ih ?_)
      intro offset low
      obtain ⟨hash, hit, keyed, cached⟩ := hits (offset + 1) (Nat.succ_lt_succ low)
      rw [getElem?_cons_succ] at keyed
      refine ⟨hash, hit, keyed, ?_⟩
      rw [Nat.add_zero, Nat.add_assoc, Nat.add_comm 1 offset]
      exact cached

/-- A registered block carries the hash and the tokens of its place in a longer chain. -/
theorem Indexed.place {known : Registration → Prop} (indexed : pool.Indexed known)
    (size : 0 < pool.blockSize) {block index : Nat} {salt : UInt64}
    (registered : pool.Registered block
      { salt := salt, chain := tokens.take ((index + 1) * pool.blockSize) })
    (room : (index + 1) * pool.blockSize ≤ tokens.length) :
    known { salt := salt, chain := tokens.take ((index + 1) * pool.blockSize) } ∧
      (pool.block block).hash = chainHash pool.blockSize tokens salt (index + 1) ∧
      (pool.block block).tokens = blockTokens pool.blockSize tokens index := by
  obtain ⟨entry, count, owner, part, length, hash, stored⟩ := indexed block registered.1
  rw [registered.2, Option.some.injEq] at owner
  subst owner
  have same : count = index := by
    rw [length_take, Nat.min_eq_left room] at length
    have equal := Nat.eq_of_mul_eq_mul_right size length
    omega
  subst same
  refine ⟨part, ?_, ?_⟩
  · rw [hash]
    apply chainHash_congr
    rw [take_take, Nat.min_self]
  · rw [stored]
    exact blockTokens_take _ _ (Nat.lt_succ_self count)

end BlockPool

theorem take_of_leading {α : Type} {front whole : List α} (leading : front <+: whole)
    (inside : count ≤ front.length) : front.take count = whole.take count := by
  obtain ⟨more, rfl⟩ := leading
  rw [take_append_of_le_length inside]

namespace Layout

variable {pool : BlockPool} {cells : Cells M} {seats : List Seat} {known : Registration → Prop}
    {entry : Registration}

/-- Every leading part of a registered chain is registered. -/
theorem ancestors_registered (layout : Layout pool cells seats known)
    (exact : Exact pool cells seats) (tail : pool.TailFirst)
    (registered : pool.Registered block entry)
    (length : entry.chain.length = (count + 1) * pool.blockSize) {index : Nat}
    (low : index ≤ count) :
    ∃ copy, pool.Registered copy
      { entry with chain := entry.chain.take ((index + 1) * pool.blockSize) } := by
  have size := layout.size
  induction count generalizing block entry with
  | zero =>
    have zero : index = 0 := by omega
    rw [zero, ← length, take_length]
    exact ⟨block, registered⟩
  | succ count ih =>
    by_cases last : index = count + 1
    · rw [last, ← length, take_length]
      exact ⟨block, registered⟩
    rw [Nat.succ_mul (count + 1)] at length
    have positive := Nat.mul_le_mul_right pool.blockSize (show 1 ≤ count + 1 by omega)
    obtain ⟨copy, parent⟩ := layout.parent_registered exact tail registered (by omega)
    have shorter : (entry.parent pool.blockSize).chain =
        entry.chain.take ((count + 1) * pool.blockSize) := by
      rw [Registration.parent, length, Nat.add_sub_cancel]
    have short : (entry.parent pool.blockSize).chain.length =
        (count + 1) * pool.blockSize := by
      rw [shorter, length_take]
      omega
    obtain ⟨found, ancestor⟩ := ih parent short (by omega)
    rw [shorter, take_take, Nat.min_eq_left
      (Nat.mul_le_mul_right _ (show index + 1 ≤ count + 1 by omega))] at ancestor
    exact ⟨found, ancestor⟩

/-- A request whose tokens go on behind a registered chain hits that chain. -/
theorem getComputedBlocks_reaches (layout : Layout pool cells seats known)
    (exact : Exact pool cells seats) (tail : pool.TailFirst)
    (free : CollisionFree pool.blockSize known) (registered : pool.Registered block entry)
    (length : entry.chain.length = (count + 1) * pool.blockSize) {tokens : List Token}
    (leading : entry.chain <+: tokens) (longer : entry.chain.length < tokens.length) :
    ∃ hit, (pool.getComputedBlocks tokens
        (updateHashes pool.blockSize [] tokens entry.salt))[count]? = some hit ∧
      pool.Registered hit entry := by
  have size := layout.size
  have caching : pool.caching = true := by
    by_contra off
    exact registered.1 (layout.linked.uncached (by simpa using off) block)
  have hashes : updateHashes pool.blockSize [] tokens entry.salt =
      chainHashes pool.blockSize tokens entry.salt (tokens.length / pool.blockSize) := by
    have chain := updateHashes_chain pool.blockSize tokens entry.salt 0
    rwa [Nat.zero_max] at chain
  have room : count + 1 ≤ (tokens.length - 1) / pool.blockSize := by
    rw [Nat.le_div_iff_mul_le size]
    omega
  have few : (tokens.length - 1) / pool.blockSize ≤ tokens.length / pool.blockSize :=
    Nat.div_le_div_right (Nat.sub_le _ _)
  have hits : ∀ index < count + 1, ∃ hash hit, ((chainHashes pool.blockSize tokens entry.salt
      (tokens.length / pool.blockSize)).take ((tokens.length - 1) / pool.blockSize))[index]? =
        some hash ∧
      pool.getCachedBlock hash (blockTokens pool.blockSize tokens (0 + index)) = some hit := by
    intro index low
    have inside := Nat.mul_le_mul_right pool.blockSize (show index + 1 ≤ count + 1 from low)
    obtain ⟨copy, ancestor⟩ := layout.ancestors_registered exact tail registered length
      (show index ≤ count by omega)
    rw [take_of_leading leading (by omega)] at ancestor
    obtain ⟨_, hash, stored⟩ := layout.indexed.place size ancestor (by omega)
    obtain ⟨hit, cached⟩ := BlockPool.getCachedBlock_of_mem caching
      ((layout.linked.registered _ copy).mpr ⟨rfl, ancestor.1⟩)
    refine ⟨chainHash pool.blockSize tokens entry.salt (index + 1), hit, ?_, ?_⟩
    · rw [getElem?_take, if_pos (by omega), chainHashes_getElem? _ _ _ (by omega)]
    · rw [Nat.zero_add, ← stored, ← hash]
      exact cached
  have run : pool.getComputedBlocks tokens (updateHashes pool.blockSize [] tokens entry.salt) =
      BlockPool.cachedRun pool tokens 0 ((chainHashes pool.blockSize tokens entry.salt
        (tokens.length / pool.blockSize)).take ((tokens.length - 1) / pool.blockSize)) := by
    have positive := Nat.mul_le_mul_right pool.blockSize (show 1 ≤ count + 1 by omega)
    rw [BlockPool.getComputedBlocks, if_neg, hashes]
    rw [caching]
    simp only [Bool.true_eq_false, false_or]
    omega
  have long := BlockPool.cachedRun_long hits
  rw [← run] at long
  obtain ⟨hit, found⟩ : ∃ hit, (pool.getComputedBlocks tokens
      (updateHashes pool.blockSize [] tokens entry.salt))[count]? = some hit :=
    ⟨_, getElem?_eq_getElem long⟩
  refine ⟨hit, found, ?_⟩
  -- without collisions the block that is hit belongs to the same chain
  obtain ⟨hash, keyed, cached⟩ := BlockPool.getComputedBlocks_getElem? found
  obtain ⟨_, member, _⟩ := BlockPool.mem_of_getCachedBlock cached
  obtain ⟨same, present⟩ := (layout.linked.registered hash hit).mp member
  obtain ⟨own, number, owner, ownKnown, ownLength, ownHash, _⟩ := layout.indexed hit (same ▸ present)
  have whole : entry = { salt := entry.salt, chain := tokens.take ((count + 1) * pool.blockSize) } := by
    rw [← length, ← prefix_iff_eq_take.mp leading]
  obtain ⟨known, _⟩ := layout.indexed.place size (whole ▸ registered) (by omega)
  rw [← whole] at known
  rw [hashes, chainHashes_getElem? _ _ _ (by omega), Option.some.injEq] at keyed
  refine ⟨same ▸ present, ?_⟩
  rw [owner]
  congr 1
  apply free own entry ownKnown known number count ownLength length
  rw [← ownHash, same, ← keyed]
  apply chainHash_congr
  exact (take_of_leading leading (Nat.le_of_eq length.symm)).symm

end Layout

namespace Engine

/-- The prefix cache is prefix-closed in every run without hash collisions: with a block of
a chain a block for the chain before it is in the index, and every lookup of tokens that go
on behind the chain gets to it. -/
theorem run_prefixClosed (M : Model) (cfg : EngineConfig) (actions : List Action)
    (free : CollisionFree cfg.blockSize (chains M cfg actions)) {hash : UInt64} {block : Nat}
    (indexed : (hash, block) ∈ (run M cfg actions).sched.pool.hashToBlock) :
    ∃ entry i, ((run M cfg actions).sched.pool.block block).owner = some entry ∧
      entry.chain.length = (i + 1) * cfg.blockSize ∧
      (0 < i → ∃ parentHash parent,
        (parentHash, parent) ∈ (run M cfg actions).sched.pool.hashToBlock ∧
        ((run M cfg actions).sched.pool.block parent).owner =
          some { salt := entry.salt, chain := entry.chain.take (i * cfg.blockSize) }) ∧
      ∀ tokens, entry.chain <+: tokens → entry.chain.length < tokens.length →
        ∃ hit, ((run M cfg actions).sched.pool.getComputedBlocks tokens
            (updateHashes cfg.blockSize [] tokens entry.salt))[i]? = some hit ∧
          ((run M cfg actions).sched.pool.block hit).owner = some entry := by
  have inv := run_invariant M cfg actions
  have exact := inv.exact free
  have tail : (run M cfg actions).sched.pool.TailFirst := run_tailFirst M cfg actions free
  have size : (run M cfg actions).sched.pool.blockSize = cfg.blockSize := inv.blockSize
  have layout := inv.sched.layout
  generalize (run M cfg actions).sched = s at *
  rw [← size] at free ⊢
  obtain ⟨same, present⟩ := (layout.linked.registered hash block).mp indexed
  obtain ⟨entry, i, owner, _, length, _⟩ := layout.indexed block (same ▸ present)
  have registered : s.pool.Registered block entry := ⟨same ▸ present, owner⟩
  refine ⟨entry, i, owner, length, ?_, ?_⟩
  · intro deep
    obtain ⟨copy, parent⟩ := layout.ancestors_registered exact tail registered length
      (Nat.sub_le i 1)
    rw [Nat.sub_add_cancel deep] at parent
    exact ⟨_, copy, (layout.linked.registered _ copy).mpr ⟨rfl, parent.1⟩, parent.2⟩
  · intro tokens leading longer
    obtain ⟨hit, found, reached⟩ := layout.getComputedBlocks_reaches exact tail free registered
      length leading longer
    exact ⟨hit, found, reached.2⟩

def chainConfig : EngineConfig where
  maxModelLen := 20
  blockSize := 2
  numBlocks := 4
  blockSize_pos := Nat.two_pos

/-- A request leaves a chain of three blocks behind, and two others take the unused block and
the end of the chain. -/
def chainRun : List Action :=
  [.submit [1, 1, 2, 3, 4] { maxTokens := 2 } {}, .step {}, .step {}, .submit [1] {} {},
    .submit [1] {} {}, .step {}]

theorem chainRun_collisionFree :
    CollisionFree 2 (chains Model.counting chainConfig chainRun) := by
  have held : ∀ before ∈ chainRun.inits, ∀ r ∈ (run Model.counting chainConfig before).newRequests ++
      (run Model.counting chainConfig before).sched.allRequests,
        r.opts.cacheSalt = 0 ∧ r.tokens <+: [1, 1, 2, 3, 4, 5, 6] := by
    decide +kernel
  exact @collisionFree_of_line _ chainConfig _ _ _ (by decide +kernel) held

/-- The second block of the chain is still registered, and so is the first. -/
theorem run_prefixClosed_chain :
    ∃ hash parent, (hash, parent) ∈ (run Model.counting chainConfig chainRun).sched.pool.hashToBlock ∧
      ((run Model.counting chainConfig chainRun).sched.pool.block parent).owner =
        some { salt := 0, chain := [1, 1] } := by
  obtain ⟨entry, i, owner, length, parents, _⟩ := run_prefixClosed Model.counting chainConfig chainRun
    chainRun_collisionFree (show (chainHash 2 [1, 1, 2, 3] 0 2, 1) ∈ _ by decide +kernel)
  have same : entry = { salt := 0, chain := [1, 1, 2, 3] } := by
    have stored : ((run Model.counting chainConfig chainRun).sched.pool.block 1).owner =
        some { salt := 0, chain := [1, 1, 2, 3] } := by decide +kernel
    rw [stored, Option.some.injEq] at owner
    exact owner.symm
  subst same
  have second : i = 1 := by
    change 4 = (i + 1) * 2 at length
    omega
  subst second
  exact parents (by decide)

end Engine

end Iian
