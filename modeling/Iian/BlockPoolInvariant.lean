import Iian.BlockPool
import Mathlib.Data.List.Count
import Mathlib.Data.List.Perm.Basic

namespace Iian

open List
open Lib (IntrusiveList)

/-- What a prefix-cache entry stores in its block, without the reference count. -/
def Block.entry (value : Block) : UInt64 × List Token × Option Registration :=
  (value.hash, value.tokens, value.owner)

variable {index other : Nat} {pool : BlockPool} {held pending : List Nat}

namespace BlockPool

section

variable (pool : BlockPool)

theorem block_setBlock_same (value : Block) (bound : index < pool.numBlocks) :
    (pool.setBlock index value).block index = value := by
  simp only [block, setBlock, getD_eq_getElem?_getD, getElem?_set_self bound, Option.getD_some]

theorem block_setBlock_other (value : Block) (different : index ≠ other) :
    (pool.setBlock index value).block other = pool.block other := by
  simp only [block, setBlock, getD_eq_getElem?_getD, getElem?_set_ne different]

theorem block_outside (outside : pool.numBlocks ≤ index) :
    pool.block index = {} := by
  simp only [block, getD_eq_getElem?_getD, getElem?_eq_none outside, Option.getD_none]

theorem lt_numBlocks_of_refCount (positive : 0 < pool.refCount index) :
    index < pool.numBlocks := by
  by_contra outside
  rw [refCount, pool.block_outside (Nat.le_of_not_lt outside)] at positive
  exact Nat.lt_irrefl 0 positive

theorem lt_numBlocks_of_hash (registered : (pool.block index).hash ≠ hashNone) :
    index < pool.numBlocks := by
  by_contra outside
  rw [pool.block_outside (Nat.le_of_not_lt outside)] at registered
  exact registered rfl

end

@[simp] theorem numBlocks_setBlock (pool : BlockPool) (index : Nat) (value : Block) :
    (pool.setBlock index value).numBlocks = pool.numBlocks := length_set

/-- The pool invariant. `held` lists every occurrence of a block in a block table;
`pending` lists blocks whose last reference is gone but which are not yet relinked. -/
structure Invariant (pool : BlockPool) (held pending : List Nat) : Prop where
  sized : pool.free.nodes.length = pool.numBlocks
  linked : ∃ indices, pool.free.Represents indices ∧ (indices ++ pending).Nodup ∧
    ∀ index, index ∈ indices ++ pending ↔ index < pool.numBlocks ∧ pool.refCount index = 0
  counted : ∀ index, pool.refCount index = held.count index
  indexed : pool.hashToBlock.Nodup
  registered : ∀ hash index, (hash, index) ∈ pool.hashToBlock ↔
    (pool.block index).hash = hash ∧ hash ≠ hashNone
  uncached : pool.caching = false → ∀ index, (pool.block index).hash = hashNone
  returned : pool.thrown = none

theorem Invariant.perm {other : List Nat} (inv : Invariant pool held pending)
    (same : held.Perm other) : Invariant pool other pending :=
  { inv with counted := fun index => (inv.counted index).trans (same.count_eq index) }

theorem Invariant.held_bound (inv : Invariant pool held pending) (member : index ∈ held) :
    index < pool.numBlocks := by
  apply pool.lt_numBlocks_of_refCount
  rw [inv.counted]
  exact count_pos_iff.mpr member

theorem new_linked (count : Nat) (nodes : Nat) (inside : count ≤ nodes) :
    ((List.range count).foldl IntrusiveList.pushBack
      { nodes := List.replicate nodes {} }).Represents (List.range count) ∧
    ((List.range count).foldl IntrusiveList.pushBack
      { nodes := List.replicate nodes {} }).nodes.length = nodes := by
  induction count with
  | zero => exact ⟨IntrusiveList.empty_represents nodes, length_replicate⟩
  | succ count ih =>
    obtain ⟨represents, length⟩ := ih (by omega)
    rw [range_succ, foldl_append]
    refine ⟨represents.pushBack ?_ ?_, ?_⟩
    · simp
    · omega
    · simpa using length

theorem new_block (numBlocks blockSize : Nat) (enableCaching : Bool) (index : Nat) :
    (new numBlocks blockSize enableCaching).block index = {} := by
  simp only [block, new, getD_eq_getElem?_getD, getElem?_replicate]
  split <;> rfl

theorem new_invariant (numBlocks blockSize : Nat) (enableCaching : Bool) :
    Invariant (new numBlocks blockSize enableCaching) [] [] := by
  have blocks := new_block numBlocks blockSize enableCaching
  obtain ⟨represents, length⟩ := new_linked numBlocks numBlocks (Nat.le_refl _)
  have size : (new numBlocks blockSize enableCaching).numBlocks = numBlocks := length_replicate
  refine ⟨length.trans size.symm, ⟨_, represents, ?_, ?_⟩, ?_, nodup_nil, ?_, ?_, rfl⟩
  · rw [append_nil]
    exact nodup_range
  · intro index
    rw [append_nil, mem_range, size, refCount, blocks]
    simp
  · intro index
    rw [refCount, blocks]
    rfl
  · intro hash index
    rw [blocks]
    constructor
    · intro member
      cases member
    · rintro ⟨same, present⟩
      exact (present same.symm).elim
  · intro _ index
    rw [blocks]

/-- The same prefix-cache index and entries; links and reference counts may differ. -/
structure SameIndex (old fresh : BlockPool) : Prop where
  numBlocks : fresh.numBlocks = old.numBlocks
  blockSize : fresh.blockSize = old.blockSize
  caching : fresh.caching = old.caching
  hashToBlock : fresh.hashToBlock = old.hashToBlock
  thrown : fresh.thrown = old.thrown
  entry : ∀ index, (fresh.block index).entry = (old.block index).entry

theorem SameIndex.refl (pool : BlockPool) : SameIndex pool pool :=
  ⟨rfl, rfl, rfl, rfl, rfl, fun _ => rfl⟩

theorem SameIndex.trans {first second third : BlockPool} (left : SameIndex first second)
    (right : SameIndex second third) : SameIndex first third :=
  ⟨right.numBlocks.trans left.numBlocks, right.blockSize.trans left.blockSize,
    right.caching.trans left.caching, right.hashToBlock.trans left.hashToBlock,
    right.thrown.trans left.thrown, fun index => (right.entry index).trans (left.entry index)⟩

theorem SameIndex.hash {old fresh : BlockPool} (same : SameIndex old fresh) (index : Nat) :
    (fresh.block index).hash = (old.block index).hash :=
  congrArg Prod.fst (same.entry index)

variable {held' pending' : List Nat} {free : IntrusiveList} {fresh : BlockPool}

/-- An update that keeps the index only has to account for links and counts. -/
theorem Invariant.relink (inv : Invariant pool held pending) (same : SameIndex pool fresh)
    (sized : fresh.free.nodes.length = pool.free.nodes.length)
    (linked : ∃ indices, fresh.free.Represents indices ∧ (indices ++ pending').Nodup ∧
      ∀ index, index ∈ indices ++ pending' ↔ index < pool.numBlocks ∧ fresh.refCount index = 0)
    (counted : ∀ index, fresh.refCount index = held'.count index) :
    Invariant fresh held' pending' := by
  refine ⟨?_, ?_, counted, ?_, ?_, ?_, same.thrown.trans inv.returned⟩
  · rw [sized, inv.sized, same.numBlocks]
  · rw [same.numBlocks]
    exact linked
  · rw [same.hashToBlock]
    exact inv.indexed
  · intro hash index
    rw [same.hashToBlock, same.hash]
    exact inv.registered hash index
  · intro off index
    rw [same.hash]
    exact inv.uncached (same.caching ▸ off) index

/-- The same links and reference counts; the index and the entries may differ. -/
structure SameLinks (old fresh : BlockPool) : Prop where
  numBlocks : fresh.numBlocks = old.numBlocks
  blockSize : fresh.blockSize = old.blockSize
  caching : fresh.caching = old.caching
  free : fresh.free = old.free
  thrown : fresh.thrown = old.thrown
  refCount : ∀ index, fresh.refCount index = old.refCount index

theorem SameLinks.refl (pool : BlockPool) : SameLinks pool pool :=
  ⟨rfl, rfl, rfl, rfl, rfl, fun _ => rfl⟩

/-- An update that keeps the links only has to account for the index. -/
theorem Invariant.reindex (inv : Invariant pool held pending) (same : SameLinks pool fresh)
    (indexed : fresh.hashToBlock.Nodup)
    (registered : ∀ hash index, (hash, index) ∈ fresh.hashToBlock ↔
      (fresh.block index).hash = hash ∧ hash ≠ hashNone) (on : pool.caching ≠ false) :
    Invariant fresh held pending := by
  refine ⟨?_, ?_, fun index => (same.refCount index).trans (inv.counted index), indexed, registered,
    fun off => (on (same.caching ▸ off)).elim, same.thrown.trans inv.returned⟩
  · rw [same.free, inv.sized, same.numBlocks]
  · simp only [same.free, same.numBlocks, same.refCount]
    exact inv.linked

/-- A field of a block that its new value keeps. -/
theorem block_setBlock_field {α : Type} (field : Block → α) (pool : BlockPool) {value : Block}
    (same : field value = field (pool.block index)) (other : Nat) :
    field ((pool.setBlock index value).block other) = field (pool.block other) := by
  by_cases here : index = other
  · subst here
    by_cases bound : index < pool.numBlocks
    · rw [pool.block_setBlock_same _ bound, same]
    · rw [pool.block_outside (Nat.le_of_not_lt bound), block_outside _ (by simpa using bound)]
  · rw [pool.block_setBlock_other _ here]

section

variable (pool : BlockPool)

theorem setRef_sameIndex (index count : Nat) :
    SameIndex pool (pool.setBlock index { pool.block index with refCnt := count }) :=
  ⟨numBlocks_setBlock _ _ _, rfl, rfl, rfl, rfl, block_setBlock_field Block.entry pool rfl⟩

theorem setEntry_sameLinks {value : Block} (map : List (UInt64 × Nat))
    (same : value.refCnt = pool.refCount index) :
    SameLinks pool { pool.setBlock index value with hashToBlock := map } :=
  ⟨numBlocks_setBlock _ _ _, rfl, rfl, rfl, rfl, block_setBlock_field Block.refCnt pool same⟩

theorem refCount_setRef (other count : Nat) (bound : index < pool.numBlocks) :
    (pool.setBlock index { pool.block index with refCnt := count }).refCount other =
      if index = other then count else pool.refCount other := by
  unfold refCount
  split
  · rename_i same
    subst same
    rw [pool.block_setBlock_same _ bound]
  · rename_i different
    rw [pool.block_setBlock_other _ different]

/-- Replacing the free list alone keeps the index. -/
theorem relinked_sameIndex (free : IntrusiveList) : SameIndex pool { pool with free := free } :=
  ⟨rfl, rfl, rfl, rfl, rfl, fun _ => rfl⟩

theorem touch_eq (index : Nat) :
    pool.touch index =
      { pool.setBlock index { pool.block index with refCnt := pool.refCount index + 1 } with
        free := if pool.refCount index = 0 then pool.free.remove index else pool.free } := by
  by_cases free : (pool.block index).refCnt = 0
  · simp only [touch, refCount, listRemove, setBlock, free, ↓reduceIte]
  · simp only [touch, refCount, setBlock, free, ↓reduceIte]

theorem touch_sameIndex (index : Nat) : SameIndex pool (pool.touch index) := by
  rw [touch_eq]
  exact (setRef_sameIndex pool index _).trans (relinked_sameIndex _ _)

theorem refCount_touch (other : Nat) (bound : index < pool.numBlocks) :
    (pool.touch index).refCount other =
      if index = other then pool.refCount index + 1 else pool.refCount other := by
  rw [touch_eq, ← refCount_setRef pool other (pool.refCount index + 1) bound]
  rfl

end

/-- A new count for a block outside the free list, which waits to be relinked exactly if it is zero. -/
theorem Invariant.setRef {count : Nat} (inv : Invariant pool held pending)
    (bound : index < pool.numBlocks) (unlinked : index ∈ pending ∨ pool.refCount index ≠ 0)
    (counts : ∀ other, held'.count other = if index = other then count else held.count other)
    (distinct : pending'.Nodup)
    (waiting : ∀ other, other ∈ pending' ↔ if index = other then count = 0 else other ∈ pending) :
    Invariant (pool.setBlock index { pool.block index with refCnt := count }) held' pending' := by
  obtain ⟨indices, represents, nodup, members⟩ := inv.linked
  have absent : index ∉ indices := by
    intro member
    rcases unlinked with waits | busy
    · exact disjoint_of_nodup_append nodup member waits
    · exact busy ((members index).mp (mem_append_left _ member)).2
  refine inv.relink (setRef_sameIndex pool index _) rfl ⟨indices, represents, ?_, ?_⟩ ?_
  · refine nodup_append'.mpr ⟨nodup.of_append_left, distinct, fun other member waits => ?_⟩
    have different : index ≠ other := fun same => absent (same ▸ member)
    rw [waiting, if_neg different] at waits
    exact disjoint_of_nodup_append nodup member waits
  · intro other
    rw [mem_append, waiting, refCount_setRef pool other _ bound]
    by_cases same : index = other
    · subst same
      simp [absent, bound]
    · rw [if_neg same, if_neg same, ← mem_append]
      exact members other
  · intro other
    rw [refCount_setRef pool other _ bound, counts, inv.counted]

/-- A block waiting to be relinked is put to use instead. -/
theorem Invariant.takePending (inv : Invariant pool held (index :: pending)) :
    Invariant (pool.setBlock index { pool.block index with refCnt := 1 })
      (index :: held) pending := by
  obtain ⟨indices, _, nodup, members⟩ := inv.linked
  have inside := (members index).mp (by simp)
  have distinct := nodup_cons.mp nodup.of_append_right
  have unused := inv.counted index
  rw [inside.2] at unused
  refine inv.setRef inside.1 (.inl mem_cons_self) ?_ distinct.2 ?_
  · intro other
    by_cases same : index = other
    · subst same
      simp [← unused]
    · simp [same]
  · intro other
    by_cases same : index = other
    · subst same
      simp [distinct.1]
    · simp [same, Ne.symm same]

theorem Invariant.unlink (inv : Invariant pool held []) (bound : index < pool.numBlocks)
    (unused : pool.refCount index = 0) :
    Invariant { pool with free := pool.free.remove index } held [index] := by
  obtain ⟨indices, represents, nodup, members⟩ := inv.linked
  simp only [append_nil] at nodup members
  have order := perm_cons_erase ((members index).mpr ⟨bound, unused⟩)
  have moved := order.trans (perm_append_singleton index _).symm
  refine inv.relink (relinked_sameIndex pool _) (IntrusiveList.remove_length _ _)
    ⟨_, represents.remove index, moved.nodup_iff.mp nodup, ?_⟩ inv.counted
  intro other
  rw [← moved.mem_iff]
  exact members other

/-- Taking a reference, whether the block was in use or sat in the free list. -/
theorem Invariant.touch (inv : Invariant pool held []) (bound : index < pool.numBlocks) :
    Invariant (pool.touch index) (index :: held) [] := by
  rw [touch_eq]
  by_cases free : pool.refCount index = 0
  · rw [if_pos free, free]
    exact (inv.unlink bound free).takePending
  rw [if_neg free]
  refine inv.setRef bound (.inr free) ?_ nodup_nil (by simp)
  intro other
  rw [count_cons, inv.counted]
  by_cases same : index = other
  · simp [same]
  · simp [same]

section

variable (pool : BlockPool)

theorem evictHash_of_registered (registered : (pool.block index).hash ≠ hashNone) :
    pool.evictHash index =
      { pool.setBlock index { pool.block index with hash := hashNone } with
        hashToBlock := pool.hashToBlock.erase ((pool.block index).hash, index) } := by
  simp only [evictHash, registered, ↓reduceIte]

theorem evictHash_of_unregistered (unregistered : (pool.block index).hash = hashNone) :
    pool.evictHash index = pool := by
  simp only [evictHash, unregistered, ↓reduceIte]

theorem evictHash_block_same (index : Nat) :
    (pool.evictHash index).block index = { pool.block index with hash := hashNone } := by
  by_cases registered : (pool.block index).hash = hashNone
  · rw [pool.evictHash_of_unregistered registered, ← registered]
  · rw [pool.evictHash_of_registered registered]
    exact pool.block_setBlock_same _ (pool.lt_numBlocks_of_hash registered)

theorem evictHash_block_other (different : index ≠ other) :
    (pool.evictHash index).block other = pool.block other := by
  unfold evictHash
  dsimp only
  split
  · rfl
  · exact pool.block_setBlock_other _ different

theorem evictHash_sameLinks (index : Nat) : SameLinks pool (pool.evictHash index) := by
  unfold evictHash
  dsimp only
  split
  · exact SameLinks.refl pool
  · exact setEntry_sameLinks pool _ rfl

end

/-- Eviction removes exactly the block's own pair from the index. -/
theorem Invariant.evictHash (inv : Invariant pool held pending) (index : Nat) :
    Invariant (pool.evictHash index) held pending := by
  by_cases registered : (pool.block index).hash = hashNone
  · rw [pool.evictHash_of_unregistered registered]
    exact inv
  have map : (pool.evictHash index).hashToBlock =
      pool.hashToBlock.erase ((pool.block index).hash, index) := by
    rw [pool.evictHash_of_registered registered]
  refine inv.reindex (pool.evictHash_sameLinks index) ?_ ?_ (fun off => registered (inv.uncached off index))
  · rw [map]
    exact inv.indexed.erase _
  intro hash other
  rw [map, inv.indexed.mem_erase_iff, inv.registered]
  by_cases same : index = other
  · subst same
    rw [pool.evictHash_block_same]
    constructor
    · rintro ⟨apart, owner, _⟩
      exact (apart (by rw [owner])).elim
    · rintro ⟨empty, present⟩
      exact (present empty.symm).elim
  · rw [pool.evictHash_block_other same]
    constructor
    · exact fun inside => inside.2
    intro inside
    refine ⟨?_, inside⟩
    intro equal
    exact same (congrArg Prod.snd equal).symm

/-- What one turn of `get_new_blocks` does: the front of the free list leaves it with
one reference and no hash, and no other block changes. -/
structure Fresh (pool fresh : BlockPool) (index : Nat) : Prop where
  unused : pool.refCount index = 0
  bound : index < pool.numBlocks
  hash : (fresh.block index).hash = hashNone
  other : ∀ other, other ≠ index → fresh.block other = pool.block other
  numBlocks : fresh.numBlocks = pool.numBlocks
  numFree : fresh.numFree + 1 = pool.numFree
  blockSize : fresh.blockSize = pool.blockSize
  caching : fresh.caching = pool.caching

theorem getNewBlock_eq (pool : BlockPool) (popped : pool.free.popFront = (some index, free)) :
    pool.getNewBlock = (some index,
      (({ pool with free := free } : BlockPool).evictHash index).setBlock index
        { (({ pool with free := free } : BlockPool).evictHash index).block index with
          refCnt := 1 }) := by
  simp only [getNewBlock, popped]
  -- `evict_hash` repeats the test for a hash, so the guard around it is immaterial.
  split
  · rfl
  · rename_i unregistered
    rw [evictHash_of_unregistered _ (not_ne_iff.mp unregistered)]

theorem Invariant.getNewBlock (inv : Invariant pool held []) (available : 0 < pool.numFree) :
    ∃ index fresh, pool.getNewBlock = (some index, fresh) ∧ Fresh pool fresh index ∧
      Invariant fresh (index :: held) [] := by
  obtain ⟨indices, represents, nodup, members⟩ := inv.linked
  simp only [append_nil] at nodup members
  cases indices with
  | nil =>
    rw [numFree, represents.size] at available
    exact (Nat.lt_irrefl 0 available).elim
  | cons index rest =>
    obtain ⟨popped, remaining⟩ := represents.popFront_cons
    have inside := (members index).mp (by simp)
    refine ⟨index, _, getNewBlock_eq pool popped, ?_,
      ((inv.unlink inside.1 inside.2).evictHash index).takePending⟩
    have links := evictHash_sameLinks { pool with free := pool.free.remove index } index
    refine ⟨inside.2, inside.1, ?_, ?_, (numBlocks_setBlock _ _ _).trans links.numBlocks, ?_,
      links.blockSize, links.caching⟩
    · rw [block_setBlock_same _ _ (by rw [links.numBlocks]; exact inside.1), evictHash_block_same]
    · intro other different
      rw [block_setBlock_other _ _ different.symm, evictHash_block_other _ different.symm]
      rfl
    · change (BlockPool.evictHash _ index).free.size + 1 = pool.free.size
      rw [links.free, remaining.size, represents.size, length_cons]

/-- What `get_new_blocks` does: the listed blocks were unused, now have one reference
and no hash, and no other block changes. -/
structure FreshAll (pool fresh : BlockPool) (ids : List Nat) : Prop where
  nodup : ids.Nodup
  unused : ∀ index ∈ ids, pool.refCount index = 0
  bound : ∀ index ∈ ids, index < pool.numBlocks
  hash : ∀ index ∈ ids, (fresh.block index).hash = hashNone
  other : ∀ other, other ∉ ids → fresh.block other = pool.block other
  numBlocks : fresh.numBlocks = pool.numBlocks
  numFree : fresh.numFree + ids.length = pool.numFree
  blockSize : fresh.blockSize = pool.blockSize
  caching : fresh.caching = pool.caching

theorem FreshAll.nil (pool : BlockPool) : FreshAll pool pool [] :=
  ⟨nodup_nil, by simp, by simp, by simp, fun _ _ => rfl, rfl, rfl, rfl, rfl⟩

theorem FreshAll.cons {pool middle fresh : BlockPool} {index : Nat} {ids : List Nat}
    (first : Fresh pool middle index) (busy : middle.refCount index ≠ 0)
    (rest : FreshAll middle fresh ids) : FreshAll pool fresh (index :: ids) := by
  have absent : index ∉ ids := fun member => busy (rest.unused index member)
  have apart : ∀ other ∈ ids, other ≠ index := by
    intro other member same
    exact absent (same ▸ member)
  refine ⟨nodup_cons.mpr ⟨absent, rest.nodup⟩, ?_, ?_, ?_, ?_, ?_, ?_, ?_, ?_⟩
  · intro other member
    rcases mem_cons.mp member with same | later
    · rw [same, first.unused]
    · rw [refCount, ← first.other other (apart other later)]
      exact rest.unused other later
  · intro other member
    rcases mem_cons.mp member with same | later
    · rw [same]
      exact first.bound
    · rw [← first.numBlocks]
      exact rest.bound other later
  · refine forall_mem_cons.mpr ⟨?_, rest.hash⟩
    rw [rest.other index absent, first.hash]
  · intro other outside
    rw [mem_cons, not_or] at outside
    rw [rest.other other outside.2, first.other other outside.1]
  · rw [rest.numBlocks, first.numBlocks]
  · have one := first.numFree
    have more := rest.numFree
    rw [length_cons]
    omega
  · rw [rest.blockSize, first.blockSize]
  · rw [rest.caching, first.caching]

theorem Invariant.getNewBlocksLoop (count : Nat) (out : List Nat) (inv : Invariant pool held [])
    (available : count ≤ pool.numFree) :
    ∃ ids fresh, BlockPool.getNewBlocksLoop count pool out = (out ++ ids, fresh) ∧
      ids.length = count ∧ FreshAll pool fresh ids ∧ Invariant fresh (ids ++ held) [] := by
  induction count generalizing pool held out with
  | zero =>
    exact ⟨[], pool, by simp [BlockPool.getNewBlocksLoop], rfl, FreshAll.nil pool, inv⟩
  | succ count ih =>
    obtain ⟨index, middle, shape, first, next⟩ := inv.getNewBlock (by omega)
    have room := first.numFree
    obtain ⟨ids, fresh, loop, length, rest, final⟩ := ih (out ++ [index]) next (by omega)
    have busy : middle.refCount index ≠ 0 := by
      rw [next.counted, count_cons_self]
      omega
    refine ⟨index :: ids, fresh, ?_, ?_, FreshAll.cons first busy rest, ?_⟩
    · simp only [BlockPool.getNewBlocksLoop, shape, loop, append_assoc, singleton_append]
    · rw [length_cons, length]
    · exact final.perm perm_middle

/-- With enough free blocks `get_new_blocks` does not throw. -/
theorem Invariant.getNewBlocks (count : Nat) (out : List Nat) (inv : Invariant pool held [])
    (available : count ≤ pool.numFree) :
    ∃ ids fresh, pool.getNewBlocks count out = (out ++ ids, fresh) ∧
      ids.length = count ∧ FreshAll pool fresh ids ∧ Invariant fresh (ids ++ held) [] := by
  have shape : pool.getNewBlocks count out = BlockPool.getNewBlocksLoop count pool out := by
    simp only [BlockPool.getNewBlocks, gt_iff_lt, Nat.not_lt.mpr available, ↓reduceIte]
  rw [shape]
  exact inv.getNewBlocksLoop count out available

section

variable (inv : Invariant pool held (index :: pending))

include inv

/-- Relinking a waiting block. -/
theorem Invariant.link (length : free.nodes.length = pool.free.nodes.length)
    (linked : ∀ {indices}, pool.free.Represents indices → index ∉ indices →
      index < pool.free.nodes.length → ∃ order, free.Represents order ∧ order.Perm
    (index :: indices)) :
    Invariant { pool with free := free } held pending := by
  obtain ⟨indices, represents, nodup, members⟩ := inv.linked
  have inside := (members index).mp (by simp)
  have absent : index ∉ indices := fun member => disjoint_of_nodup_append nodup member mem_cons_self
  obtain ⟨order, links, perm⟩ := linked represents absent (by rw [inv.sized]; exact inside.1)
  have moved : (indices ++ index :: pending).Perm (order ++ pending) :=
    perm_middle.trans (perm.append_right pending).symm
  refine inv.relink (relinked_sameIndex pool _) length
    ⟨order, links, moved.nodup_iff.mp nodup, fun other => ?_⟩ inv.counted
  rw [← moved.mem_iff]
  exact members other

theorem Invariant.listPushFront :
    Invariant (pool.listPushFront index) held pending :=
  inv.link (IntrusiveList.pushFront_length _ _) fun represents absent bound =>
    ⟨_, represents.pushFront absent bound, .rfl⟩

theorem Invariant.listPushBack :
    Invariant (pool.listPushBack index) held pending :=
  inv.link (IntrusiveList.pushBack_length _ _) fun represents absent bound =>
    ⟨_, represents.pushBack absent bound, perm_append_singleton index _⟩

end

theorem Invariant.permPending {other : List Nat} (inv : Invariant pool held pending)
    (same : pending.Perm other) : Invariant pool held other := by
  obtain ⟨indices, represents, nodup, members⟩ := inv.linked
  have reordered : (indices ++ pending).Perm (indices ++ other) := same.append_left indices
  refine { inv with linked := ⟨indices, represents, reordered.nodup_iff.mp nodup, ?_⟩ }
  intro index
  rw [← reordered.mem_iff]
  exact members index

theorem Invariant.pushAll {push : BlockPool → Nat → BlockPool} (released : List Nat)
    (step : ∀ {pool index pending}, Invariant pool held (index :: pending) →
      Invariant (push pool index) held pending)
    (same : ∀ pool index, SameIndex pool (push pool index))
    (inv : Invariant pool held (released ++ pending)) :
    Invariant (released.foldl push pool) held pending ∧ SameIndex pool (released.foldl push pool) := by
  induction released generalizing pool with
  | nil => exact ⟨inv, SameIndex.refl pool⟩
  | cons index rest ih =>
    obtain ⟨final, kept⟩ := ih (step inv)
    exact ⟨final, (same pool index).trans kept⟩

theorem Invariant.pushFronts (released : List Nat) (inv : Invariant pool held (released ++ pending)) :
    Invariant (released.foldl BlockPool.listPushFront pool) held pending ∧
      SameIndex pool (released.foldl BlockPool.listPushFront pool) :=
  inv.pushAll released Invariant.listPushFront fun pool _ => relinked_sameIndex pool _

/-- Dropping a reference: of the last one, the block is left waiting to be relinked. -/
theorem Invariant.dropRef {pending' : List Nat} (inv : Invariant pool (index :: held) pending)
    (waiting : pending.Nodup → index ∉ pending → pending'.Nodup ∧ ∀ other, other ∈ pending' ↔
      if index = other then pool.refCount index - 1 = 0 else other ∈ pending) :
    Invariant (pool.setBlock index { pool.block index with refCnt := pool.refCount index - 1 })
      held pending' := by
  have count := inv.counted index
  rw [count_cons_self] at count
  have busy : pool.refCount index ≠ 0 := by omega
  obtain ⟨indices, _, nodup, members⟩ := inv.linked
  obtain ⟨distinct, waits⟩ := waiting nodup.of_append_right
    (fun member => busy ((members index).mp (mem_append_right _ member)).2)
  refine inv.setRef (inv.held_bound mem_cons_self) (.inr busy) ?_ distinct waits
  intro other
  by_cases same : index = other
  · subst same
    rw [if_pos rfl, count, Nat.add_sub_cancel]
  · rw [if_neg same, count_cons_of_ne same]

/-- The counting loop of `free_blocks` never meets an unreferenced block. -/
theorem Invariant.dropRefs (blocks : List Nat) {uncached cached : List Nat}
    (inv : Invariant pool (blocks ++ held) (uncached ++ cached)) :
    ∃ fresh uncached' cached',
      BlockPool.dropRefs blocks pool uncached cached = (fresh, uncached', cached', true) ∧
        Invariant fresh held (uncached' ++ cached') ∧ SameIndex pool fresh := by
  induction blocks generalizing pool uncached cached with
  | nil => exact ⟨pool, uncached, cached, rfl, inv, SameIndex.refl pool⟩
  | cons index rest ih =>
    have positive : (pool.block index).refCnt ≠ 0 := by
      have count := inv.counted index
      rw [cons_append, count_cons_self] at count
      change pool.refCount index ≠ 0
      omega
    have next : ∀ {uncached cached}, Invariant (pool.setBlock index
        { pool.block index with refCnt := pool.refCount index - 1 }) (rest ++ held) (uncached ++ cached) →
        ∃ fresh uncached' cached', BlockPool.dropRefs rest (pool.setBlock index
          { pool.block index with refCnt := pool.refCount index - 1 }) uncached cached =
            (fresh, uncached', cached', true) ∧
          Invariant fresh held (uncached' ++ cached') ∧ SameIndex pool fresh := by
      intro uncached cached placed
      obtain ⟨fresh, uncached', cached', shape, final, kept⟩ := ih placed
      exact ⟨fresh, uncached', cached', shape, final, (setRef_sameIndex pool index _).trans kept⟩
    simp only [BlockPool.dropRefs, positive, ↓reduceIte]
    split
    · rename_i last
      have placed : ∀ {pending'}, pending'.Perm (index :: (uncached ++ cached)) → Invariant
          (pool.setBlock index { pool.block index with refCnt := pool.refCount index - 1 })
          (rest ++ held) pending' := by
        intro pending' order
        refine inv.dropRef fun nodup absent =>
          ⟨order.nodup_iff.mpr (nodup_cons.mpr ⟨absent, nodup⟩), fun other => ?_⟩
        rw [order.mem_iff, mem_cons]
        by_cases same : index = other
        · subst same
          rw [if_pos rfl]
          exact ⟨fun _ => last, fun _ => .inl rfl⟩
        · simp [same, Ne.symm same]
      split
      · apply next (placed _)
        simpa only [append_assoc, singleton_append] using perm_middle
      · apply next (placed _)
        rw [← append_assoc]
        exact perm_append_singleton index (uncached ++ cached)
    · rename_i shared
      refine next (inv.dropRef fun nodup absent => ⟨nodup, fun other => ?_⟩)
      by_cases same : index = other
      · subst same
        rw [if_pos rfl]
        exact ⟨fun member => (absent member).elim, fun last => (shared last).elim⟩
      · rw [if_neg same]

/-- Releasing one table: no double free, and every other table keeps its references. -/
theorem Invariant.freeBlocks (blocks : List Nat) (inv : Invariant pool (blocks ++ held) []) :
    Invariant (pool.freeBlocks blocks) held [] ∧ SameIndex pool (pool.freeBlocks blocks) := by
  have start : Invariant pool (blocks ++ held) ([] ++ []) := inv
  obtain ⟨dropped, uncached, cached, shape, after, kept⟩ := start.dropRefs blocks
  have reordered : Invariant dropped held (uncached.reverse ++ (cached ++ [])) := by
    rw [append_nil]
    exact after.permPending (List.Perm.append_right cached (reverse_perm uncached).symm)
  obtain ⟨fronts, keptFronts⟩ := reordered.pushFronts uncached.reverse
  obtain ⟨backs, keptBacks⟩ := fronts.pushAll cached Invariant.listPushBack
    fun pool _ => relinked_sameIndex pool _
  simp only [BlockPool.freeBlocks, shape]
  exact ⟨backs, (kept.trans keptFronts).trans keptBacks⟩

section

variable (pool : BlockPool) (hash : UInt64) (tokens : List Token) (owner : Registration)

theorem cacheBlock_block_other (different : index ≠ other) :
    (pool.cacheBlock index hash tokens owner).block other = pool.block other := by
  unfold cacheBlock
  dsimp only
  split
  · rfl
  · split
    · rfl
    · exact pool.block_setBlock_other _ different

theorem cacheBlock_block_same (caching : pool.caching = true)
    (unregistered : (pool.block index).hash = hashNone) (bound : index < pool.numBlocks) :
    (pool.cacheBlock index hash tokens owner).block index =
      { pool.block index with hash := hash, tokens := tokens, owner := some owner } := by
  simp only [cacheBlock, caching, Bool.true_eq_false, ↓reduceIte, unregistered, ne_eq,
    not_true_eq_false]
  exact pool.block_setBlock_same _ bound

theorem cacheBlock_of_registered (registered : (pool.block index).hash ≠ hashNone) :
    pool.cacheBlock index hash tokens owner = pool := by
  simp only [cacheBlock, ne_eq, registered, not_false_eq_true, ↓reduceIte, ite_self]

end

theorem cacheBlock_of_uncached (pool : BlockPool) (index : Nat) (hash : UInt64)
    (tokens : List Token) (owner : Registration) (off : pool.caching = false) :
    pool.cacheBlock index hash tokens owner = pool := by
  simp only [cacheBlock, off, ↓reduceIte]

theorem cacheBlock_sameLinks (pool : BlockPool) (index : Nat) (hash : UInt64) (tokens : List Token)
    (owner : Registration) : SameLinks pool (pool.cacheBlock index hash tokens owner) := by
  unfold cacheBlock
  dsimp only
  split
  · exact SameLinks.refl pool
  · split
    · exact SameLinks.refl pool
    · exact setEntry_sameLinks pool _ rfl

/-- Registering a block adds exactly its own pair to the index. -/
theorem Invariant.cacheBlock (inv : Invariant pool held []) (bound : index < pool.numBlocks)
    {hash : UInt64} (present : hash ≠ hashNone) (tokens : List Token) (owner : Registration) :
    Invariant (pool.cacheBlock index hash tokens owner) held [] := by
  by_cases off : pool.caching = false
  · rw [pool.cacheBlock_of_uncached _ _ _ _ off]
    exact inv
  by_cases registered : (pool.block index).hash = hashNone
  · have on : pool.caching = true := by simpa using off
    have here := pool.cacheBlock_block_same hash tokens owner on registered bound
    have map : (pool.cacheBlock index hash tokens owner).hashToBlock =
        (hash, index) :: pool.hashToBlock := by
      simp only [BlockPool.cacheBlock, on, Bool.true_eq_false, ↓reduceIte, registered, ne_eq,
        not_true_eq_false]
    refine inv.reindex (pool.cacheBlock_sameLinks index hash tokens owner) ?_ ?_ off
    · rw [map, nodup_cons]
      refine ⟨?_, inv.indexed⟩
      intro member
      exact present (((inv.registered hash index).mp member).1.symm.trans registered)
    · intro key other
      rw [map, mem_cons, inv.registered, Prod.mk.injEq]
      by_cases same : index = other
      · subst same
        rw [here, registered]
        constructor
        · rintro (⟨equal, _⟩ | ⟨empty, nonempty⟩)
          · exact ⟨equal.symm, equal ▸ present⟩
          · exact (nonempty empty.symm).elim
        · rintro ⟨equal, _⟩
          exact .inl ⟨equal.symm, rfl⟩
      · rw [pool.cacheBlock_block_other _ _ _ same]
        simp [Ne.symm same]
  · rw [pool.cacheBlock_of_registered _ _ _ registered]
    exact inv

end BlockPool

end Iian
