import Iian.Layout

/- Every operation on one request keeps the layout of the cache. -/
namespace Iian

open List
open BlockPool (entry_hash entry_owner baseTable baseCached)

variable {M : Model}

theorem le_ceil_mul (count : Nat) {size : Nat} (positive : 0 < size) :
    count ≤ (count + size - 1) / size * size := by
  have split := Nat.div_add_mod (count + size - 1) size
  have small := Nat.mod_lt (count + size - 1) positive
  rw [Nat.mul_comm] at split
  omega

namespace BlockPool

variable {pool fresh : BlockPool} {table held base ids : List Nat}

theorem Keeps.refl (pool : BlockPool) (held : List Nat) : pool.Keeps pool held :=
  ⟨rfl, fun _ _ _ => rfl, fun _ _ hash once => ⟨hash, once⟩⟩

section

variable (allocated : Allocated pool fresh base ids) (inv : pool.Invariant (table ++ held) [])
    {block : Nat}
include allocated inv

theorem Allocated.absent (member : block ∈ ids) : block ∉ table ∧ block ∉ held := by
  have unused := allocated.unused block member
  rw [inv.counted, count_eq_zero, mem_append, not_or] at unused
  exact unused

/-- An allocation takes only unused blocks and cached ones, so other tables keep theirs. -/
theorem Allocated.keeps (final : fresh.Invariant ((base ++ ids) ++ held) [])
    (hits : ∀ block ∈ base, block ∈ table ∨ (pool.block block).hash ≠ hashNone) :
    pool.Keeps fresh held := by
  have outside : ∀ block ∈ held, block ∉ ids := by
    intro block member inside
    exact (allocated.absent inv inside).2 member
  refine ⟨allocated.blockSize, ?_, ?_⟩
  · intro block member _
    exact allocated.entry block (outside block member)
  intro block member hash once
  refine ⟨?_, ?_⟩
  · rw [entry_hash (allocated.entry block (outside block member))]
    exact hash
  rw [inv.counted, count_append] at once
  have here := count_pos_iff.mpr member
  have notTable : block ∉ table := by
    rw [← count_eq_zero]
    omega
  have notBase : block ∉ base := by
    intro inBase
    rcases hits block inBase with own | present
    · exact notTable own
    · exact present hash
  rw [final.counted, count_append, count_append,
    count_eq_zero.mpr notBase, count_eq_zero.mpr (outside block member)]
  omega

theorem Allocated.once (final : fresh.Invariant ((base ++ ids) ++ held) []) (member : block ∈ ids) :
    fresh.refCount block = 1 := by
  rw [final.counted, count_append, count_append,
    count_eq_zero.mpr (allocated.apart block member),
    count_eq_one_of_mem allocated.nodup member,
    count_eq_zero.mpr (allocated.absent inv member).2]

end

theorem Allocated.old (allocated : Allocated pool fresh base ids) (block : Nat)
    (present : (fresh.block block).hash ≠ hashNone) :
    (fresh.block block).entry = (pool.block block).entry := by
  apply allocated.entry
  intro member
  exact present (allocated.hash block member)

theorem baseTable_nil (state : KVRequestState) : baseTable state [] = state.blockIds := by
  unfold baseTable
  split
  · rename_i empty
    exact (List.isEmpty_iff.mp empty).symm
  · rfl

theorem baseCached_nil (state : KVRequestState) :
    baseCached state [] = state.numCachedBlocks := by
  simp [baseCached]

end BlockPool

/-- Fresh blocks behind the table hold nothing yet. -/
theorem Seat.Valid.appendBlocks {pool : BlockPool} {cells : Cells M} {seat : Seat}
    (valid : seat.Valid pool cells) (size : 0 < pool.blockSize) (ids : List Nat)
    (fresh : ∀ block ∈ ids, (pool.block block).hash = hashNone ∧ pool.refCount block = 1) :
    Seat.Valid pool cells
      { seat with kv := { seat.kv with blockIds := seat.kv.blockIds ++ ids } } := by
  have cachedLength := valid.cached_length size
  refine ⟨valid.hashes, ?_, valid.cached, valid.real, ?_, valid.fits, ?_, ?_, ?_⟩
  · intro empty
    exact valid.start (append_eq_nil_iff.mp empty).1
  · refine Nat.le_trans valid.room (Nat.mul_le_mul_right _ ?_)
    rw [length_append]
    omega
  · intro index block low found
    change index < seat.kv.numCachedBlocks at low
    rw [getElem?_append_left (by omega)] at found
    exact valid.registered index block low found
  · intro index block high found
    rcases Nat.lt_or_ge index seat.kv.blockIds.length with inside | outside
    · rw [getElem?_append_left inside] at found
      exact valid.own index block high found
    · rw [getElem?_append_right outside] at found
      exact fresh block (mem_of_getElem? found)
  · intro index block offset high found inside below
    have room := valid.room
    change index * pool.blockSize + offset < seat.computed at below
    have low : index < seat.kv.blockIds.length := by
      by_contra outside
      have product := Nat.mul_le_mul_right pool.blockSize (Nat.le_of_not_lt outside)
      omega
    rw [getElem?_append_left low] at found
    exact valid.labels index block offset high found inside below

/-- The request may get more tokens and other drafts, and fewer computed positions, as long
as the positions that stay computed were fed the same tokens. -/
structure Seat.Revises (size : Nat) (seat next : Seat) : Prop where
  kv : next.kv = seat.kv
  salt : next.salt = seat.salt
  hashes : HashesOf size next.salt next.tokens next.hashes
  tokens : seat.tokens <+: next.tokens
  less : next.computed ≤ seat.computed
  cached : seat.kv.numCachedBlocks * size ≤ next.computed
  fits : next.computed ≤ next.fed.length
  same : next.fed.take next.computed = seat.fed.take next.computed

namespace Seat.Valid

variable {pool : BlockPool} {cells : Cells M} {seat next : Seat}

theorem revises (valid : seat.Valid pool cells) : seat.Revises pool.blockSize seat :=
  ⟨rfl, rfl, valid.hashes, prefix_refl _, Nat.le_refl _, valid.cached, valid.fits, rfl⟩

theorem revise (valid : seat.Valid pool cells) (revised : seat.Revises pool.blockSize next) :
    next.Valid pool cells := by
  have kv := revised.kv
  have less := revised.less
  refine ⟨revised.hashes, ?_, ?_, ?_, ?_, revised.fits, ?_, ?_, ?_⟩
  · rw [kv]
    exact valid.start
  · rw [kv]
    exact revised.cached
  · rw [kv]
    exact Nat.le_trans valid.real revised.tokens.length_le
  · rw [kv]
    exact Nat.le_trans less valid.room
  · rw [kv]
    exact valid.registered
  · rw [kv]
    exact valid.own
  rw [kv]
  intro index block offset high found inside below
  rw [valid.labels index block offset high found inside (by omega)]
  have prefixes := congrArg (List.take (index * pool.blockSize + offset + 1)) revised.same
  rw [take_take, take_take, Nat.min_eq_left (by omega)] at prefixes
  rw [prefixes]

end Seat.Valid

namespace Layout

variable {pool fresh : BlockPool} {cells after : Cells M} {seat next : Seat}
  {rest seats : List Seat} {known : Registration → Prop} {kv : KVRequestState} {nTotalTokens : Nat}

/-- Phase 1: a running request gets more blocks of its own. -/
theorem extend (layout : Layout pool cells (seat :: rest) known)
    (allocated : pool.allocateSlots seat.kv nTotalTokens [] = (true, kv, fresh)) :
    Layout fresh cells ({ seat with kv := kv } :: rest) known ∧
      nTotalTokens ≤ kv.blockIds.length * fresh.blockSize ∧
      fresh.blockSize = pool.blockSize ∧
      (Exact pool cells (seat :: rest) → Exact fresh cells ({ seat with kv := kv } :: rest)) := by
  have start := layout.linked_cons
  have valid := layout.valid seat (mem_cons_self)
  rcases start.allocateSlots nTotalTokens [] (by simp) with
    refused | ⟨ids, result, shape, length, alloc, final⟩
  · rw [refused] at allocated
    cases allocated
  rw [shape] at allocated
  cases allocated
  rw [BlockPool.baseTable_nil] at length alloc final ⊢
  rw [BlockPool.baseCached_nil]
  have keeps := alloc.keeps start final (fun block member => .inl member)
  have ownKeeps : pool.Keeps fresh seat.kv.blockIds := by
    refine ⟨alloc.blockSize, ?_, ?_⟩
    · intro block member _
      exact alloc.entry block (fun inside => (alloc.absent start inside).1 member)
    intro block member hash once
    have outside : block ∉ ids := fun inside => (alloc.absent start inside).1 member
    refine ⟨?_, ?_⟩
    · rw [entry_hash (alloc.entry block outside)]
      exact hash
    · rw [start.counted, count_append] at once
      rw [final.counted, count_append, count_append, count_eq_zero.mpr outside]
      omega
  have kept : seat.Valid fresh cells := valid.frame ownKeeps (fun _ _ _ _ _ _ => rfl)
  have grown := kept.appendBlocks (by rw [alloc.blockSize]; exact layout.size) ids
    (fun block member => ⟨alloc.hash block member, alloc.once start final member⟩)
  refine ⟨layout.replace keeps alloc.numBlocks ?_ grown alloc.old, ?_, alloc.blockSize, ?_⟩
  · rw [flatMap_cons]
    exact final
  · rw [alloc.blockSize]
    refine Nat.le_trans (le_ceil_mul nTotalTokens layout.size) (Nat.mul_le_mul_right _ ?_)
    rw [length_append, length]
    omega
  · intro exact
    apply layout.replaceExact exact keeps
    intro index block low found
    change index < seat.kv.numCachedBlocks at low
    have cachedLength := valid.cached_length layout.size
    rw [getElem?_append_left (by omega)] at found
    have registered := valid.registered index block low found
    rw [entry_owner (ownKeeps.registered block (mem_of_getElem? found) registered)]
    exact exact.shared seat mem_cons_self index block low found

/-- Phase 2: a waiting request takes its hits over and gets blocks behind them. -/
theorem enter (layout : Layout pool cells (seat :: rest) known) (empty : seat.kv.blockIds = [])
    {hashes : List UInt64} (chains : HashesOf pool.blockSize seat.salt seat.tokens hashes)
    (allocated : pool.allocateSlots seat.kv nTotalTokens
      (pool.getComputedBlocks seat.tokens hashes) = (true, kv, fresh)) :
    let hits := (pool.getComputedBlocks seat.tokens hashes).length * pool.blockSize
    let next := { seat with hashes := hashes, kv := kv, computed := hits }
    Layout fresh cells (next :: rest) known ∧
      nTotalTokens ≤ kv.blockIds.length * fresh.blockSize ∧
      fresh.blockSize = pool.blockSize ∧
      (CollisionFree pool.blockSize known →
        (∀ entry, Registration.PartOf entry seat.salt seat.tokens → known entry) →
        Exact pool cells (seat :: rest) → Exact fresh cells (next :: rest)) := by
  intro hits next
  set blocks := pool.getComputedBlocks seat.tokens hashes
  have start := layout.linked_cons
  have valid := layout.valid seat (mem_cons_self)
  have present : ∀ block ∈ blocks, (pool.block block).hash ≠ hashNone :=
    fun block member => start.getComputedBlocks_registered member
  have length := pool.getComputedBlocks_length_le seat.tokens hashes
  rcases start.allocateSlots nTotalTokens blocks (fun block member => pool.lt_numBlocks_of_hash (present block member)) with
    refused | ⟨ids, result, shape, count, alloc, final⟩
  · rw [refused] at allocated
    cases allocated
  rw [shape] at allocated
  cases allocated
  have base : baseTable seat.kv blocks = blocks := by
    simp [baseTable, empty]
  have cached : baseCached seat.kv blocks = blocks.length := by
    by_cases missed : blocks = []
    · simp [baseCached, missed, valid.start empty]
    · simp [baseCached, empty, missed]
  rw [base] at count alloc final
  have hitEntry : ∀ block ∈ blocks, (fresh.block block).entry = (pool.block block).entry := by
    intro block member
    exact alloc.entry block (fun inside => alloc.apart block inside member)
  have keeps := alloc.keeps start final (fun block member => .inr (present block member))
  have outside : ∀ index block, blocks.length ≤ index → blocks[index]? ≠ some block := by
    intro index block high found
    rw [getElem?_eq_none high] at found
    cases found
  have hitsOnly : Seat.Valid fresh cells { next with
      kv := { blockIds := blocks, numCachedBlocks := blocks.length } } := by
    refine ⟨?_, ?_, ?_, ?_, ?_, ?_, ?_, ?_, ?_⟩
    · rw [alloc.blockSize]
      exact chains
    · intro none
      exact length_eq_zero_iff.mpr none
    · rw [alloc.blockSize]
    · rw [alloc.blockSize]
      exact length
    · rw [alloc.blockSize]
    · refine Nat.le_trans length ?_
      rw [Seat.fed, length_append]
      exact Nat.le_add_right _ _
    · intro index block _ found
      have member := mem_of_getElem? found
      rw [entry_hash (hitEntry block member)]
      exact present block member
    · intro index block high found
      exact (outside index block high found).elim
    · intro index block _ high found
      exact (outside index block high found).elim
  have grown := hitsOnly.appendBlocks (by rw [alloc.blockSize]; exact layout.size) ids
    (fun block member => ⟨alloc.hash block member, alloc.once start final member⟩)
  have shape : next = { next with
      kv := { blockIds := blocks ++ ids, numCachedBlocks := blocks.length } } := by
    simp only [next, base, cached]
  rw [shape]
  refine ⟨layout.replace keeps alloc.numBlocks ?_ grown alloc.old, ?_, alloc.blockSize, ?_⟩
  · rw [flatMap_cons]
    exact final
  · rw [alloc.blockSize, base]
    refine Nat.le_trans (le_ceil_mul nTotalTokens layout.size) (Nat.mul_le_mul_right _ ?_)
    rw [length_append, count]
    omega
  · intro free own exact
    apply layout.replaceExact exact keeps
    intro index block low found
    change index < blocks.length at low
    rw [getElem?_append_left low] at found
    rw [entry_owner (hitEntry block (mem_of_getElem? found))]
    exact (layout.indexed.hit start free chains own found).2

/-- An empty cache without requests. -/
theorem new {numBlocks size : Nat} (enableCaching : Bool) (positive : 0 < size)
    (known : Registration → Prop) :
    Layout (BlockPool.new numBlocks size enableCaching)
        (List.replicate (numBlocks * size) none : Cells M) [] known ∧
      Exact (BlockPool.new numBlocks size enableCaching)
        (List.replicate (numBlocks * size) none : Cells M) [] := by
  constructor
  · refine ⟨positive, ?_, BlockPool.new_invariant _ _ _, forall_mem_nil _, BlockPool.new_indexed _ _ _ _, ?_⟩
    · rw [BlockPool.numBlocks, BlockPool.new, length_replicate, length_replicate]
    · intro block entry count offset registered
      rw [BlockPool.new_block] at registered
      exact (registered rfl).elim
  · refine ⟨?_, forall_mem_nil _⟩
    intro slot cell written
    rw [getD_eq_getElem?_getD, getElem?_replicate] at written
    split at written <;> cases written

/-- Requests are revised in place. -/
theorem reviseMap {α : Type} {list : List α} {before after : α → Seat}
    (layout : Layout pool cells (list.map before) known)
    (revised : ∀ a ∈ list, (before a).Revises pool.blockSize (after a)) :
    Layout pool cells (list.map after) known ∧
      (Exact pool cells (list.map before) → Exact pool cells (list.map after)) := by
  have tables : (list.map after).flatMap Seat.table = (list.map before).flatMap Seat.table := by
    rw [flatMap_map, flatMap_map]
    apply flatMap_congr
    intro a member
    rw [Seat.table, (revised a member).kv]
  constructor
  · refine { layout with linked := ?_, valid := ?_ }
    · rw [tables]
      exact layout.linked
    · intro seat member
      obtain ⟨a, inside, rfl⟩ := mem_map.mp member
      exact (layout.valid _ (mem_map_of_mem inside)).revise (revised a inside)
  · intro exact
    refine ⟨exact.sound, ?_⟩
    intro seat member index block low found
    obtain ⟨a, inside, rfl⟩ := mem_map.mp member
    have change := revised a inside
    have valid := layout.valid _ (mem_map_of_mem inside)
    rw [change.kv] at low found
    rw [exact.shared _ (mem_map_of_mem inside) index block low found, change.salt]
    have below : (index + 1) * pool.blockSize ≤ (before a).tokens.length :=
      Nat.le_trans (Nat.mul_le_mul_right _ low) valid.real
    obtain ⟨more, grown⟩ := change.tokens
    rw [← grown, take_append_of_le_length below]

/-- One request is revised. -/
theorem revise (layout : Layout pool cells (seat :: rest) known)
    (revised : seat.Revises pool.blockSize next) :
    Layout pool cells (next :: rest) known ∧
      (Exact pool cells (seat :: rest) → Exact pool cells (next :: rest)) := by
  have before : ((seat, next) :: rest.map (fun other => (other, other))).map Prod.fst =
      seat :: rest := by simp [Function.comp_def]
  have after : ((seat, next) :: rest.map (fun other => (other, other))).map Prod.snd =
      next :: rest := by simp [Function.comp_def]
  rw [← before] at layout ⊢
  rw [← after]
  apply layout.reviseMap
  intro pair member
  rcases mem_cons.mp member with rfl | inside
  · exact revised
  · obtain ⟨other, _, rfl⟩ := mem_map.mp inside
    exact (layout.valid other (mem_map_of_mem member)).revises

/-- A request without blocks leaves the system, or enters it. -/
theorem drop (layout : Layout pool cells (seat :: rest) known) (empty : seat.kv.blockIds = []) :
    Layout pool cells rest known := by
  have linked := layout.linked_cons
  rw [empty, nil_append] at linked
  exact { layout with
    linked := linked
    valid := fun other member => layout.valid other (mem_cons_of_mem _ member) }

theorem insert (layout : Layout pool cells seats known) (blank : seat.kv = {})
    (zero : seat.computed = 0)
    (hashes : HashesOf pool.blockSize seat.salt seat.tokens seat.hashes) :
    Layout pool cells (seat :: seats) known := by
  refine { layout with linked := ?_, valid := ?_ }
  · rw [flatMap_cons, Seat.table, blank]
    exact layout.linked
  · refine forall_mem_cons.mpr ⟨?_, layout.valid⟩
    refine ⟨hashes, ?_, ?_, ?_, ?_, ?_, ?_, ?_, ?_⟩ <;> simp [blank, zero]

theorem insertExact (exact : Exact pool cells seats) (blank : seat.kv = {}) :
    Exact pool cells (seat :: seats) := by
  refine ⟨exact.sound, ?_⟩
  intro other member index block low found
  rcases mem_cons.mp member with same | inside
  · rw [same, blank] at low
    cases low
  · exact exact.shared other inside index block low found

/-- `free`: preemption and the end of a request. -/
theorem release (layout : Layout pool cells (seat :: rest) known) :
    ∃ fresh, pool.freeState seat.kv = ({}, fresh) ∧ fresh.blockSize = pool.blockSize ∧
      Layout fresh cells rest known ∧
      (Exact pool cells (seat :: rest) → Exact fresh cells rest) := by
  have start := layout.linked_cons
  have valid := layout.valid seat (mem_cons_self)
  obtain ⟨fresh, shape, final, same⟩ := start.freeState valid.start
  have keeps : pool.Keeps fresh (rest.flatMap Seat.table) := by
    refine ⟨same.blockSize, fun block _ _ => same.entry block, ?_⟩
    intro block member hash once
    refine ⟨(same.hash block).trans hash, ?_⟩
    rw [start.counted, count_append] at once
    have here := count_pos_iff.mpr member
    rw [final.counted]
    omega
  have blank : Seat.Valid fresh cells { seat with kv := {}, computed := 0 } := by
    refine ⟨?_, ?_, ?_, ?_, ?_, ?_, ?_, ?_, ?_⟩
    · rw [same.blockSize]
      exact valid.hashes
    all_goals simp
  have placed : Layout fresh cells ({ seat with kv := {}, computed := 0 } :: rest) known :=
    layout.replace keeps same.numBlocks final blank (fun block _ => same.entry block)
  refine ⟨fresh, shape, same.blockSize, placed.drop rfl, ?_⟩
  intro exact
  have both : Exact fresh cells ({ seat with kv := {}, computed := 0 } :: rest) :=
    layout.replaceExact exact keeps (by simp)
  exact ⟨both.sound, fun other member => both.shared other (mem_cons_of_mem _ member)⟩

/-- `cache_blocks`: full blocks of real tokens are registered with their contents. -/
theorem commit (layout : Layout pool cells (seat :: rest) known)
    (own : ∀ entry, Registration.PartOf entry seat.salt seat.tokens → known entry) :
    let hashes := updateHashes pool.blockSize seat.hashes seat.tokens seat.salt
    ∃ kv fresh, pool.cacheBlocks seat.kv seat.tokens (min seat.computed seat.tokens.length) hashes
        seat.salt = (kv, fresh) ∧ fresh.blockSize = pool.blockSize ∧
      Layout fresh cells ({ seat with hashes := hashes, kv := kv } :: rest) known ∧
      (Exact pool cells (seat :: rest) →
        Exact fresh cells ({ seat with hashes := hashes, kv := kv } :: rest)) := by
  intro hashes
  have start := layout.linked_cons
  have valid := layout.valid seat (mem_cons_self)
  have chains := valid.hashes.update
  obtain ⟨fresh, shape, final, committed⟩ := start.cacheBlocks seat.tokens seat.salt
    (min seat.computed seat.tokens.length) chains.present
  have stopLength := pool.cacheStop_length seat.kv (min seat.computed seat.tokens.length) hashes
  have stopTokens := pool.cacheStop_mul seat.kv (min seat.computed seat.tokens.length) hashes
  have caching := @BlockPool.caching_of_cacheStop pool seat.kv
    (min seat.computed seat.tokens.length) hashes
  refine ⟨_, fresh, shape, committed.blockSize, ?_⟩
  change BlockPool.Committed _ _ _ _ hashes _ _ _ at committed
  generalize pool.cacheStop seat.kv (min seat.computed seat.tokens.length) hashes = stop at *
  have counts : ∀ block, fresh.refCount block = pool.refCount block := by
    intro block
    rw [final.counted, start.counted]
  -- a block whose entry changes is one of the request's own blocks, at a known place
  have changed : ∀ block, (fresh.block block).entry = (pool.block block).entry ∨
      ∃ index, seat.kv.numCachedBlocks ≤ index ∧ index < stop ∧
        seat.kv.blockIds[index]? = some block ∧
        (fresh.block block).owner = some
          { salt := seat.salt, chain := seat.tokens.take ((index + 1) * pool.blockSize) } := by
    intro block
    rcases committed.entry block with same | ⟨index, low, high, found, _, fields⟩
    · exact .inl same
    · exact .inr ⟨index, low, by omega, found, congrArg (fun entry => entry.2.2) fields⟩
  have unique : ∀ i j block, seat.kv.numCachedBlocks ≤ i → seat.kv.blockIds[i]? = some block →
      seat.kv.blockIds[j]? = some block → i = j := by
    intro i j block high left right
    obtain ⟨_, once⟩ := valid.own i block high left
    have alone := (layout.own_alone (mem_of_getElem? left) once).1
    exact index_unique left right (by omega)
  have keptRegistered : ∀ block, (pool.block block).hash ≠ hashNone →
      (fresh.block block).entry = (pool.block block).entry := by
    intro block present
    rcases changed block with same | ⟨index, low, _, found, _⟩
    · exact same
    · exact (present (valid.own index block low found).1).elim
  have keeps : pool.Keeps fresh (rest.flatMap Seat.table) := by
    refine ⟨committed.blockSize, fun block _ => keptRegistered block, ?_⟩
    intro block member hash once
    refine ⟨?_, by rw [counts]; exact once⟩
    rcases changed block with same | ⟨index, low, _, found, _⟩
    · rw [entry_hash same]
      exact hash
    · obtain ⟨_, alone⟩ := valid.own index block low found
      exact ((layout.own_alone (mem_of_getElem? found) alone).2 member).elim
  have registered : ∀ index block, seat.kv.numCachedBlocks ≤ index → index < stop →
      seat.kv.blockIds[index]? = some block → (fresh.block block).hash ≠ hashNone ∧
        (fresh.block block).owner = some
          { salt := seat.salt, chain := seat.tokens.take ((index + 1) * pool.blockSize) } := by
    intro index block low high found
    have present := committed.hash (caching (by omega)) index low (by omega) block found
    refine ⟨present, ?_⟩
    rcases changed block with same | ⟨place, _, _, there, owner⟩
    · exact (present ((entry_hash same).trans (valid.own index block low found).1)).elim
    · rw [unique index place block low found there]
      exact owner
  have size := layout.size
  have cachedTokens : max seat.kv.numCachedBlocks stop * pool.blockSize ≤
      min seat.computed seat.tokens.length := by
    rcases Nat.le_total seat.kv.numCachedBlocks stop with less | less
    · rw [Nat.max_eq_right less]
      exact stopTokens
    · rw [Nat.max_eq_left less]
      exact Nat.le_min.mpr ⟨valid.cached, valid.real⟩
  have next : Seat.Valid fresh cells { seat with
      hashes := hashes
      kv := { seat.kv with numCachedBlocks := max seat.kv.numCachedBlocks stop } } := by
    refine ⟨?_, ?_, ?_, ?_, ?_, valid.fits, ?_, ?_, ?_⟩
    · rw [committed.blockSize]
      exact chains
    · intro empty
      have zero := valid.start empty
      rw [empty, length_nil] at stopLength
      change max seat.kv.numCachedBlocks stop = 0
      omega
    · rw [committed.blockSize]
      exact Nat.le_trans cachedTokens (Nat.min_le_left _ _)
    · rw [committed.blockSize]
      exact Nat.le_trans cachedTokens (Nat.min_le_right _ _)
    · rw [committed.blockSize]
      exact valid.room
    · intro index block low found
      change index < max seat.kv.numCachedBlocks stop at low
      rcases Nat.lt_or_ge index seat.kv.numCachedBlocks with old | high
      · have present := valid.registered index block old found
        rw [entry_hash (keptRegistered block present)]
        exact present
      · exact (registered index block high (by omega) found).1
    · intro index block high found
      change max seat.kv.numCachedBlocks stop ≤ index at high
      obtain ⟨hash, once⟩ := valid.own index block (by omega) found
      refine ⟨?_, by rw [counts]; exact once⟩
      rcases changed block with same | ⟨place, _, below, there, _⟩
      · rw [entry_hash same]
        exact hash
      · have same := unique index place block (by omega) found there
        omega
    · intro index block offset high found inside below
      change max seat.kv.numCachedBlocks stop ≤ index at high
      rw [committed.blockSize] at inside below ⊢
      exact valid.labels index block offset (by omega) found inside below
  refine ⟨layout.rebuild keeps committed.numBlocks ?_ next
    (layout.indexed.committed committed chains own) ?_, ?_⟩
  · rw [flatMap_cons]
    exact final
  · intro block entry count offset present owner length inside
    rcases changed block with same | ⟨index, low, high, found, fresh⟩
    · rw [entry_hash same] at present
      rw [entry_owner same] at owner
      exact layout.labels block entry count offset present owner length inside
    · have blockTokens : (index + 1) * pool.blockSize ≤ stop * pool.blockSize :=
        Nat.mul_le_mul_right _ high
      have product : (index + 1) * pool.blockSize = index * pool.blockSize + pool.blockSize :=
        Nat.succ_mul _ _
      rw [owner] at fresh
      cases fresh
      rw [length_take, Nat.min_eq_left (by omega)] at length
      have same : index = count := by
        have equal := Nat.eq_of_mul_eq_mul_right size length
        omega
      subst same
      rw [valid.labels index block offset low found inside (by omega), Seat.fed,
        take_append_of_le_length (by omega), take_take, Nat.min_eq_left (by omega)]
  · intro exact
    apply layout.replaceExact exact keeps
    intro index block low found
    change index < max seat.kv.numCachedBlocks stop at low
    rcases Nat.lt_or_ge index seat.kv.numCachedBlocks with old | high
    · rw [entry_owner (keptRegistered block (valid.registered index block old found))]
      exact exact.shared seat mem_cons_self index block old found
    · exact (registered index block high (by omega) found).2

end Layout

end Iian
