import Iian.LayoutSteps

/- The order in which the pool evicts: the free list from its head. A registered block that
waits there for its eviction has its parent behind it, or in use. -/
namespace Iian

open List
open BlockPool (entry_hash entry_owner)
open Lib (IntrusiveList)

variable {α : Type} {first second : α} {index block : Nat}

theorem pair_sublist_tail {other : α} {rest : List α}
    (pair : [first, second].Sublist (other :: rest)) (different : first ≠ other) :
    [first, second].Sublist rest := by
  cases pair with
  | cons _ later => exact later
  | cons_cons _ _ => exact (different rfl).elim

/-- A sublist keeps the order of what it keeps. -/
theorem pair_sublist_of_mem {few all : List α} (sub : few.Sublist all) (nodup : all.Nodup)
    (pair : [first, second].Sublist all) (left : first ∈ few) (right : second ∈ few) :
    [first, second].Sublist few := by
  induction sub with
  | slnil => cases left
  | @cons few all other sub ih =>
    rw [nodup_cons] at nodup
    have different : first ≠ other := fun same => nodup.1 (same ▸ sub.subset left)
    exact ih nodup.2 (pair_sublist_tail pair different) left right
  | @cons_cons few all other sub ih =>
    rw [nodup_cons] at nodup
    by_cases same : first = other
    · subst same
      cases pair with
      | cons _ later => exact (nodup.1 (later.subset (by simp))).elim
      | cons_cons _ later =>
        have apart : second ≠ first := fun same => nodup.1 (same ▸ later.subset (by simp))
        apply List.Sublist.cons_cons
        simpa [apart] using right
    · have later := pair_sublist_tail pair same
      have apart : second ≠ other := fun equal => nodup.1 (equal ▸ later.subset (by simp))
      exact (ih nodup.2 later (by simpa [same] using left) (by simpa [apart] using right)).cons _

theorem pair_sublist_reverse {list : List α} (here : list[index]? = some first)
    (next : list[index + 1]? = some second) : [second, first].Sublist list.reverse := by
  have pair : [first, second].Sublist list := by
    induction list generalizing index with
    | nil => cases here
    | cons head rest ih =>
      cases index with
      | zero =>
        have same : head = first := by simpa using here
        subst same
        apply List.Sublist.cons_cons
        rw [singleton_sublist]
        exact mem_of_getElem? (by simpa using next)
      | succ index => exact (ih (by simpa using here) (by simpa using next)).cons _
  exact pair.reverse

/-- The chain of the block before the last one. -/
def Registration.parent (blockSize : Nat) (entry : Registration) : Registration :=
  { entry with chain := entry.chain.take (entry.chain.length - blockSize) }

namespace BlockPool

variable {pool fresh : BlockPool} {held pending : List Nat} {state : KVRequestState}

/-- The block is in the prefix-cache index, for this chain. -/
def Registered (pool : BlockPool) (block : Nat) (entry : Registration) : Prop :=
  (pool.block block).hash ≠ hashNone ∧ (pool.block block).owner = some entry

theorem registered_congr (same : (fresh.block block).entry = (pool.block block).entry)
    (entry : Registration) : fresh.Registered block entry ↔ pool.Registered block entry := by
  unfold Registered
  rw [entry_hash same, entry_owner same]

/-- The free list from its head: the next block to be given away comes first. -/
def evictionOrder (pool : BlockPool) : List Nat :=
  pool.free.walkNext pool.numBlocks pool.free.head

theorem evictionOrder_eq {order : List Nat} (represents : pool.free.Represents order)
    (sized : pool.free.nodes.length = pool.numBlocks) : pool.evictionOrder = order :=
  (represents.walks (Nat.le_of_eq sized)).1

theorem Invariant.order (inv : Invariant pool held pending) :
    pool.free.Represents pool.evictionOrder ∧ (pool.evictionOrder ++ pending).Nodup ∧
      ∀ index, index ∈ pool.evictionOrder ++ pending ↔
        index < pool.numBlocks ∧ pool.refCount index = 0 := by
  obtain ⟨order, represents, linked⟩ := inv.linked
  rw [evictionOrder_eq represents inv.sized]
  exact ⟨represents, linked⟩

theorem Invariant.mem_order (inv : Invariant pool held []) (index : Nat) :
    index ∈ pool.evictionOrder ↔ index < pool.numBlocks ∧ pool.refCount index = 0 := by
  have members := inv.order.2.2 index
  rwa [append_nil] at members

theorem Invariant.order_touch (inv : Invariant pool held []) (bound : index < pool.numBlocks) :
    (pool.touch index).evictionOrder = pool.evictionOrder.erase index := by
  apply evictionOrder_eq _ (inv.touch bound).sized
  have represents := inv.order.1
  rw [touch_eq]
  by_cases free : pool.refCount index = 0
  · simp only [free, ↓reduceIte]
    exact represents.remove index
  have absent : index ∉ pool.evictionOrder := fun member => free ((inv.mem_order index).mp member).2
  rw [erase_of_not_mem absent]
  simp only [free, ↓reduceIte]
  exact represents

theorem Invariant.order_getNewBlock (inv : Invariant pool held [])
    (taken : pool.getNewBlock = (some index, fresh)) (next : Invariant fresh (index :: held) []) :
    pool.evictionOrder = index :: fresh.evictionOrder := by
  have represents := inv.order.1
  cases shape : pool.evictionOrder with
  | nil =>
    have head := represents.head
    rw [shape] at head
    have dry : pool.getNewBlock = (none, pool) := by
      simp only [BlockPool.getNewBlock, IntrusiveList.popFront, head, head?_nil]
    rw [dry] at taken
    cases taken
  | cons first rest =>
    rw [shape] at represents
    obtain ⟨popped, remaining⟩ := represents.popFront_cons
    rw [getNewBlock_eq pool popped] at taken
    cases taken
    rw [evictionOrder_eq _ next.sized]
    change (BlockPool.evictHash _ _).free.Represents rest
    rw [(evictHash_sameLinks _ _).free]
    exact remaining

theorem Invariant.order_link {free : IntrusiveList} {order : List Nat}
    (inv : Invariant pool held (index :: pending)) (length : free.nodes.length = pool.free.nodes.length)
    (linked : index ∉ pool.evictionOrder → index < pool.free.nodes.length → free.Represents order) :
    ({ pool with free := free } : BlockPool).evictionOrder = order := by
  obtain ⟨_, nodup, members⟩ := inv.order
  refine evictionOrder_eq (linked ?_ ?_) (length.trans inv.sized)
  · exact fun member => disjoint_of_nodup_append nodup member mem_cons_self
  · rw [inv.sized]
    exact ((members index).mp (by simp)).1

theorem Invariant.order_pushFronts (released : List Nat)
    (inv : Invariant pool held (released ++ pending)) :
    (released.foldl BlockPool.listPushFront pool).evictionOrder =
      released.reverse ++ pool.evictionOrder := by
  induction released generalizing pool with
  | nil => rfl
  | cons index rest ih =>
    have first : (pool.listPushFront index).evictionOrder = index :: pool.evictionOrder :=
      inv.order_link (IntrusiveList.pushFront_length _ _) inv.order.1.pushFront
    rw [foldl_cons, ih inv.listPushFront, first]
    simp

theorem Invariant.order_pushBacks (released : List Nat)
    (inv : Invariant pool held (released ++ pending)) :
    (released.foldl BlockPool.listPushBack pool).evictionOrder =
      pool.evictionOrder ++ released := by
  induction released generalizing pool with
  | nil => simp
  | cons index rest ih =>
    have last : (pool.listPushBack index).evictionOrder = pool.evictionOrder ++ [index] :=
      inv.order_link (IntrusiveList.pushBack_length _ _) inv.order.1.pushBack
    rw [foldl_cons, ih inv.listPushBack, last]
    simp

theorem dropRefs_order (blocks : List Nat) {uncached cached uncached' cached' : List Nat}
    (dropped : BlockPool.dropRefs blocks pool uncached cached = (fresh, uncached', cached', true)) :
    fresh.free = pool.free ∧ ∃ front back, uncached' = uncached ++ front ∧
      cached' = cached ++ back ∧ back.Sublist blocks ∧
      ∀ block ∈ front, (pool.block block).hash = hashNone ∨ pool.caching = false := by
  induction blocks generalizing pool uncached cached with
  | nil =>
    cases dropped
    exact ⟨rfl, [], [], by simp, by simp, .slnil, by simp⟩
  | cons index rest ih =>
    have same := setRef_sameIndex pool index (pool.refCount index - 1)
    have kept : ∀ {front : List Nat}, (∀ block ∈ front,
        ((pool.setBlock index { pool.block index with
          refCnt := pool.refCount index - 1 }).block block).hash = hashNone ∨
        pool.caching = false) → ∀ block ∈ front,
        (pool.block block).hash = hashNone ∨ pool.caching = false := by
      intro front plain block member
      rw [← same.hash block]
      exact plain block member
    unfold BlockPool.dropRefs at dropped
    dsimp only at dropped
    split at dropped
    · cases dropped
    split at dropped
    · split at dropped
      · rename_i plain
        obtain ⟨free, front, back, fronts, backs, sub, unregistered⟩ := ih dropped
        refine ⟨free, index :: front, back, by simp [fronts], backs, sub.cons _, ?_⟩
        exact forall_mem_cons.mpr ⟨plain, kept unregistered⟩
      · obtain ⟨free, front, back, fronts, backs, sub, unregistered⟩ := ih dropped
        exact ⟨free, front, index :: back, fronts, by simp [backs], sub.cons_cons _,
          kept unregistered⟩
    · obtain ⟨free, front, back, fronts, backs, sub, unregistered⟩ := ih dropped
      exact ⟨free, front, back, fronts, backs, sub.cons _, kept unregistered⟩

/-- Freed blocks without a hash go to the front of the order, the others to its end, where
they keep the order in which they were freed. -/
theorem Invariant.order_freeBlocks (blocks : List Nat) (inv : Invariant pool (blocks ++ held) []) :
    ∃ front back, (pool.freeBlocks blocks).evictionOrder = front ++ pool.evictionOrder ++ back ∧
      back.Sublist blocks ∧ ∀ block ∈ front, (pool.block block).hash = hashNone := by
  have start : Invariant pool (blocks ++ held) ([] ++ []) := inv
  obtain ⟨dropped, uncached, cached, shape, after, kept⟩ := start.dropRefs blocks
  obtain ⟨free, front, back, fronts, backs, sub, unregistered⟩ := dropRefs_order blocks shape
  rw [nil_append] at fronts backs
  subst fronts backs
  have reordered : Invariant dropped held (uncached.reverse ++ (cached ++ [])) := by
    rw [append_nil]
    exact after.permPending (List.Perm.append_right cached (reverse_perm uncached).symm)
  refine ⟨uncached, cached, ?_, sub, ?_⟩
  · have same : dropped.evictionOrder = pool.evictionOrder := by
      unfold evictionOrder
      rw [free, kept.numBlocks]
    simp only [BlockPool.freeBlocks, shape]
    rw [(reordered.pushFronts uncached.reverse).1.order_pushBacks cached,
      reordered.order_pushFronts uncached.reverse, reverse_reverse, same]
  · intro block member
    rcases unregistered block member with plain | off
    · exact plain
    · exact inv.uncached off block

/-- Every registered block of the order has a copy of its parent behind it, or in use. -/
def TailFirst (pool : BlockPool) : Prop :=
  ∀ block ∈ pool.evictionOrder, ∀ entry, pool.Registered block entry →
    pool.blockSize < entry.chain.length → ∃ copy,
      pool.Registered copy (entry.parent pool.blockSize) ∧
        ([block, copy].Sublist pool.evictionOrder ∨ 0 < pool.refCount copy)

theorem new_tailFirst (numBlocks blockSize : Nat) (enableCaching : Bool) :
    (new numBlocks blockSize enableCaching).TailFirst := by
  intro block _ entry registered
  refine (registered.1 ?_).elim
  rw [new_block]

/-- Blocks may leave the order and parents may stay anywhere behind or in use. -/
theorem TailFirst.keep (tail : pool.TailFirst) (size : fresh.blockSize = pool.blockSize)
    (old : ∀ block ∈ fresh.evictionOrder, ∀ entry, fresh.Registered block entry →
      block ∈ pool.evictionOrder ∧ pool.Registered block entry)
    (parents : ∀ block ∈ fresh.evictionOrder, ∀ copy entry, pool.Registered copy entry →
      [block, copy].Sublist pool.evictionOrder ∨ 0 < pool.refCount copy →
      fresh.Registered copy entry ∧
        ([block, copy].Sublist fresh.evictionOrder ∨ 0 < fresh.refCount copy)) :
    fresh.TailFirst := by
  intro block member entry registered deep
  obtain ⟨inside, before⟩ := old block member entry registered
  rw [size] at deep ⊢
  obtain ⟨copy, parent, place⟩ := tail block inside entry before deep
  obtain ⟨kept, later⟩ := parents block member copy _ parent place
  exact ⟨copy, kept, later⟩

section

variable (inv : Invariant pool held []) (tail : pool.TailFirst)

include inv tail

theorem Invariant.touch_tailFirst (bound : index < pool.numBlocks) :
    (pool.touch index).TailFirst := by
  have same := touch_sameIndex pool index
  have nodup := inv.order.2.1
  rw [append_nil] at nodup
  have order := inv.order_touch bound
  refine tail.keep same.blockSize ?_ ?_
  · intro block member entry registered
    rw [order] at member
    exact ⟨mem_of_mem_erase member, (registered_congr (same.entry block) entry).mp registered⟩
  · intro block member copy entry registered place
    rw [order, nodup.mem_erase_iff] at member
    refine ⟨(registered_congr (same.entry copy) entry).mpr registered, ?_⟩
    rw [refCount_touch pool copy bound]
    by_cases touched : index = copy
    · simp [touched]
    rw [if_neg touched, order]
    refine place.imp_left (fun pair => ?_)
    have kept := pair.erase index
    rwa [erase_of_not_mem (by simp [touched, Ne.symm member.1])] at kept

theorem Invariant.touches_tailFirst (hits : List Nat)
    (bounds : ∀ index ∈ hits, index < pool.numBlocks) :
    (hits.foldl BlockPool.touch pool).TailFirst := by
  induction hits generalizing pool held with
  | nil => exact tail
  | cons index rest ih =>
    have bound := bounds index mem_cons_self
    apply ih (inv.touch bound) (inv.touch_tailFirst tail bound)
    intro other member
    rw [(touch_sameIndex pool index).numBlocks]
    exact bounds other (mem_cons_of_mem _ member)

/-- The head of the order is no parent of a block behind it. -/
theorem Invariant.getNewBlock_tailFirst (taken : pool.getNewBlock = (some index, fresh))
    (news : Fresh pool fresh index) (next : Invariant fresh (index :: held) []) :
    fresh.TailFirst := by
  have order := inv.order_getNewBlock taken next
  have nodup := inv.order.2.1
  rw [append_nil, order, nodup_cons] at nodup
  refine tail.keep news.blockSize ?_ ?_
  · intro block member entry registered
    have different : block ≠ index := fun same => nodup.1 (same ▸ member)
    refine ⟨by rw [order]; exact mem_cons_of_mem _ member, ?_⟩
    rwa [Registered, news.other block different] at registered
  · intro block member copy entry registered place
    have different : block ≠ index := fun same => nodup.1 (same ▸ member)
    have later : copy ≠ index ∧
        ([block, copy].Sublist fresh.evictionOrder ∨ 0 < pool.refCount copy) := by
      rcases place with pair | used
      · rw [order] at pair
        have behind := pair_sublist_tail pair different
        exact ⟨fun same => nodup.1 (same ▸ behind.subset (by simp)), .inl behind⟩
      · refine ⟨?_, .inr used⟩
        intro same
        rw [same, news.unused] at used
        omega
    rw [Registered, refCount, news.other copy later.1]
    exact ⟨registered, later.2⟩

theorem Invariant.getNewBlocksLoop_tailFirst (count : Nat) (out : List Nat)
    (available : count ≤ pool.numFree) :
    (BlockPool.getNewBlocksLoop count pool out).2.TailFirst := by
  induction count generalizing pool held out with
  | zero => exact tail
  | succ count ih =>
    obtain ⟨index, middle, shape, news, next⟩ := inv.getNewBlock (by omega)
    have room := news.numFree
    simp only [BlockPool.getNewBlocksLoop, shape]
    exact ih next (inv.getNewBlock_tailFirst tail shape news next) _ (by omega)

theorem Invariant.getNewBlocks_tailFirst (count : Nat) (out : List Nat) :
    (pool.getNewBlocks count out).2.TailFirst := by
  unfold BlockPool.getNewBlocks
  split
  · exact tail
  · exact inv.getNewBlocksLoop_tailFirst tail count out (by omega)

end

theorem Invariant.allocateSlots_tailFirst (inv : Invariant pool (state.blockIds ++ held) [])
    (tail : pool.TailFirst) (nTotalTokens : Nat) (computedBlocks : List Nat)
    (bounds : ∀ index ∈ computedBlocks, index < pool.numBlocks) :
    (pool.allocateSlots state nTotalTokens computedBlocks).2.2.TailFirst := by
  obtain ⟨touched, adopted, touchedInv, _, _⟩ := inv.adoptHits computedBlocks bounds
  have first : touched.TailFirst := by
    have shape : (pool.adoptHits state computedBlocks).2 = touched := by rw [adopted]
    rw [← shape]
    unfold BlockPool.adoptHits
    split
    · exact inv.touches_tailFirst tail computedBlocks bounds
    · exact tail
  unfold BlockPool.allocateSlots
  rw [← baseTable_length, adopted]
  dsimp only
  generalize (nTotalTokens + pool.blockSize - 1) / pool.blockSize = needed
  generalize (if needed > (baseTable state computedBlocks).length then
    needed - (baseTable state computedBlocks).length else 0) = nNew
  generalize (if state.blockIds.isEmpty then
    computedBlocks.countP (fun block => pool.refCount block = 0) else 0) = nTouchFree
  split
  · exact tail
  · split
    · exact touchedInv.getNewBlocks_tailFirst first _ _
    · exact first

theorem cacheBlocks_free (pool : BlockPool) (state : KVRequestState) (tokens : List Token)
    (nTokensToCache : Nat) (hashes : List UInt64) (salt : UInt64) :
    (pool.cacheBlocks state tokens nTokensToCache hashes salt).2.free = pool.free := by
  unfold cacheBlocks
  split
  · rfl
  rename_i on
  dsimp only
  generalize List.range' _ _ = indices
  clear on
  induction indices generalizing pool with
  | nil => rfl
  | cons index rest ih =>
    rw [foldl_cons, ih]
    exact (cacheBlock_sameLinks _ _ _ _ _).free

/-- Blocks are registered while they are in use. -/
theorem Invariant.cacheBlocks_tailFirst (inv : Invariant pool (state.blockIds ++ held) [])
    (tail : pool.TailFirst) (tokens : List Token) (salt : UInt64) (nTokensToCache : Nat)
    {hashes : List UInt64} (present : ∀ hash ∈ hashes, hash ≠ hashNone) :
    (pool.cacheBlocks state tokens nTokensToCache hashes salt).2.TailFirst := by
  obtain ⟨fresh, shape, final, committed⟩ := inv.cacheBlocks tokens salt nTokensToCache present
  have free := pool.cacheBlocks_free state tokens nTokensToCache hashes salt
  rw [shape] at free ⊢
  have order : fresh.evictionOrder = pool.evictionOrder := by
    unfold evictionOrder
    rw [committed.numBlocks]
    exact congrArg (fun list => IntrusiveList.walkNext list pool.numBlocks list.head) free
  refine tail.keep committed.blockSize ?_ ?_
  · intro block member entry registered
    rw [order] at member
    refine ⟨member, ?_⟩
    rcases committed.entry block with same | ⟨index, _, _, found, _⟩
    · exact (registered_congr same entry).mp registered
    · have unused := ((inv.mem_order block).mp member).2
      rw [inv.counted, count_eq_zero] at unused
      exact (unused (mem_append_left _ (mem_of_getElem? found))).elim
  · intro block member copy entry registered place
    rw [order, final.counted copy, ← inv.counted copy]
    refine ⟨?_, place⟩
    rcases committed.entry copy with same | ⟨_, _, _, _, plain, _⟩
    · exact (registered_congr same entry).mpr registered
    · exact (registered.1 plain).elim

end BlockPool

variable {M : Model}

namespace Layout

variable {pool : BlockPool} {cells : Cells M} {seat : Seat} {rest seats : List Seat}
  {known : Registration → Prop} {entry : Registration}

/-- The parent of a registered block of a table stands before it in the table. -/
theorem parent_of_table (layout : Layout pool cells seats known) (exact : Exact pool cells seats)
    (member : seat ∈ seats) (found : seat.kv.blockIds[index]? = some block)
    (registered : pool.Registered block entry) (deep : pool.blockSize < entry.chain.length) :
    ∃ place copy, index = place + 1 ∧ seat.kv.blockIds[place]? = some copy ∧
      pool.Registered copy (entry.parent pool.blockSize) := by
  have valid := layout.valid seat member
  have low : index < seat.kv.numCachedBlocks := by
    by_contra high
    exact registered.1 (valid.own index block (Nat.le_of_not_lt high) found).1
  have owner := exact.shared seat member index block low found
  rw [registered.2, Option.some.injEq] at owner
  have real : (index + 1) * pool.blockSize ≤ seat.tokens.length :=
    Nat.le_trans (Nat.mul_le_mul_right _ low) valid.real
  cases index with
  | zero =>
    rw [owner, length_take] at deep
    omega
  | succ place =>
    obtain ⟨copy, there⟩ : ∃ copy, seat.kv.blockIds[place]? = some copy := by
      have inside := (List.getElem?_eq_some_iff.mp found).1
      exact ⟨_, getElem?_eq_getElem (Nat.lt_of_succ_lt inside)⟩
    have below : place < seat.kv.numCachedBlocks := Nat.lt_of_succ_lt low
    refine ⟨place, copy, rfl, there, valid.registered place copy below there, ?_⟩
    rw [exact.shared seat member place copy below there, owner, Registration.parent]
    dsimp only
    rw [length_take, Nat.min_eq_left real, take_take, Nat.succ_mul (place + 1),
      Nat.add_sub_cancel, Nat.min_eq_left (Nat.le_add_right _ _)]

section

variable (layout : Layout pool cells (seat :: rest) known) (exact : Exact pool cells (seat :: rest))

include layout exact

theorem table_nodup : seat.kv.blockIds.Nodup := by
  have valid := layout.valid seat mem_cons_self
  rw [nodup_iff_getElem?_ne_getElem?]
  intro i j less inside same
  obtain ⟨block, right⟩ : ∃ block, seat.kv.blockIds[j]? = some block :=
    ⟨_, getElem?_eq_getElem inside⟩
  have left := same.trans right
  by_cases low : j < seat.kv.numCachedBlocks
  · -- shared blocks are told apart by the lengths of their chains
    have first := exact.shared seat mem_cons_self i block (by omega) left
    have second := exact.shared seat mem_cons_self j block low right
    rw [first, Option.some.injEq, Registration.mk.injEq] at second
    have lengths := congrArg List.length second.2
    have room := Nat.le_trans (Nat.mul_le_mul_right pool.blockSize (show j + 1 ≤ _ from low)) valid.real
    have shorter := Nat.mul_le_mul_right pool.blockSize (show i + 1 ≤ j from less)
    rw [length_take, length_take, Nat.min_eq_left room] at lengths
    have size := layout.size
    rw [Nat.succ_mul j] at lengths room
    omega
  · have once := (valid.own j block (Nat.le_of_not_lt low) right).2
    have alone := (layout.own_alone (mem_of_getElem? right) once).1
    have equal := index_unique left right (by omega)
    omega

/-- `free` returns the table in reverse, so a block comes before its parent. -/
theorem release_tailFirst (tail : pool.TailFirst) :
    (pool.freeState seat.kv).2.TailFirst := by
  unfold BlockPool.freeState
  split
  · exact tail
  have inv := layout.linked_cons
  have reversed : pool.Invariant (seat.kv.blockIds.reverse ++ rest.flatMap Seat.table) [] :=
    inv.perm (List.Perm.append_right _ (reverse_perm _).symm)
  obtain ⟨final, same⟩ := reversed.freeBlocks seat.kv.blockIds.reverse
  obtain ⟨front, back, order, sub, plain⟩ := reversed.order_freeBlocks seat.kv.blockIds.reverse
  dsimp only
  generalize pool.freeBlocks seat.kv.blockIds.reverse = fresh at final same order ⊢
  -- a registered block that was in use is still in use or at the end of the order
  have freed : ∀ copy entry, pool.Registered copy entry → 0 < pool.refCount copy →
      copy ∈ back ∨ 0 < fresh.refCount copy := by
    intro copy entry registered used
    by_cases idle : fresh.refCount copy = 0
    · left
      have bound : copy < fresh.numBlocks := by
        rw [same.numBlocks]
        exact pool.lt_numBlocks_of_hash registered.1
      have member := (final.mem_order copy).mpr ⟨bound, idle⟩
      rw [order, mem_append, mem_append] at member
      rcases member with (new | old) | late
      · exact (registered.1 (plain copy new)).elim
      · have unused := ((reversed.mem_order copy).mp old).2
        omega
      · exact late
    · exact .inr (Nat.pos_of_ne_zero idle)
  intro block member entry registered deep
  have before := (BlockPool.registered_congr (same.entry block) entry).mp registered
  have after : ∀ {copy entry}, pool.Registered copy entry → fresh.Registered copy entry :=
    fun {copy entry} => (BlockPool.registered_congr (same.entry copy) entry).mpr
  rw [same.blockSize] at deep ⊢
  rw [order, append_assoc] at member ⊢
  rcases mem_append.mp member with new | member
  · exact (before.1 (plain block new)).elim
  rcases mem_append.mp member with old | late
  · obtain ⟨copy, parent, place⟩ := tail block old entry before deep
    refine ⟨copy, after parent, ?_⟩
    rcases place with pair | used
    · left
      exact (pair.trans (sublist_append_left _ _)).trans (sublist_append_right _ _)
    refine (freed copy _ parent used).imp_left (fun behind => ?_)
    have pair : ([block] ++ [copy]).Sublist (pool.evictionOrder ++ back) :=
      (singleton_sublist.mpr old).append (singleton_sublist.mpr behind)
    exact pair.trans (sublist_append_right _ _)
  · obtain ⟨index, found⟩ := mem_iff_getElem?.mp (mem_reverse.mp (sub.subset late))
    obtain ⟨place, copy, next, there, parent⟩ :=
      layout.parent_of_table exact mem_cons_self found before deep
    rw [next] at found
    have held : 0 < pool.refCount copy := by
      rw [inv.counted, count_append]
      have positive := count_pos_iff.mpr (mem_of_getElem? there)
      omega
    refine ⟨copy, after parent, (freed copy _ parent held).imp_left (fun behind => ?_)⟩
    have nodup := nodup_reverse.mpr (layout.table_nodup exact)
    have pair := pair_sublist_of_mem sub nodup (pair_sublist_reverse there found) late behind
    exact (pair.trans (sublist_append_right _ _)).trans (sublist_append_right _ _)

end

/-- Every registered block has a registered parent. -/
theorem parent_registered (layout : Layout pool cells seats known) (exact : Exact pool cells seats)
    (tail : pool.TailFirst) (registered : pool.Registered block entry)
    (deep : pool.blockSize < entry.chain.length) :
    ∃ copy, pool.Registered copy (entry.parent pool.blockSize) := by
  by_cases unused : pool.refCount block = 0
  · have bound := pool.lt_numBlocks_of_hash registered.1
    obtain ⟨copy, parent, _⟩ := tail block ((layout.linked.mem_order block).mpr ⟨bound, unused⟩)
      entry registered deep
    exact ⟨copy, parent⟩
  · rw [layout.linked.counted] at unused
    obtain ⟨seat, member, inside⟩ := mem_flatMap.mp (count_pos_iff.mp (Nat.pos_of_ne_zero unused))
    obtain ⟨index, found⟩ := mem_iff_getElem?.mp inside
    obtain ⟨_, copy, _, _, parent⟩ := layout.parent_of_table exact member found registered deep
    exact ⟨copy, parent⟩

end Layout

end Iian
