import Iian.BlockPoolInvariant
import Iian.KvCache

namespace Iian.BlockPool

open List
open Lib (IntrusiveList)

variable {pool : BlockPool} {tokens : List Token} {index offset : Nat} {hashes : List UInt64}
    {held computedBlocks : List Nat} {state : KVRequestState} {old fresh : Block}

theorem mem_of_getCachedBlock {hash : UInt64} (found : pool.getCachedBlock hash tokens = some index) :
    pool.caching = true ∧ (hash, index) ∈ pool.hashToBlock ∧
      (pool.block index).tokens = tokens := by
  unfold getCachedBlock at found
  split at found
  · rename_i caching
    obtain ⟨⟨key, block⟩, hit, same⟩ := Option.map_eq_some_iff.mp found
    have member := mem_filter.mp (mem_of_find?_eq_some hit)
    have stored := find?_some hit
    simp only [decide_eq_true_eq] at member stored
    change block = index at same
    subst same
    obtain ⟨inside, keyed⟩ := member
    subst keyed
    exact ⟨caching, inside, stored⟩
  · cases found

/-- The block hit at place `offset` of a cached run carries that place's hash and tokens. -/
theorem cachedRun_getElem? {start : Nat}
    (found : (cachedRun pool tokens start hashes)[offset]? = some index) :
    ∃ hash, hashes[offset]? = some hash ∧ pool.getCachedBlock hash
      (blockTokens pool.blockSize tokens (start + offset)) = some index := by
  induction hashes generalizing start offset with
  | nil => simp [cachedRun] at found
  | cons hash rest ih =>
    unfold cachedRun at found
    split at found
    · simp at found
    rename_i block hit
    cases offset with
    | zero =>
      simp only [getElem?_cons_zero, Option.some.injEq] at found
      subst found
      exact ⟨hash, rfl, by simpa using hit⟩
    | succ offset =>
      simp only [getElem?_cons_succ] at found
      obtain ⟨key, keyed, cached⟩ := ih found
      refine ⟨key, by simpa using keyed, ?_⟩
      rw [show start + (offset + 1) = start + 1 + offset by omega]
      exact cached

theorem cachedRun_length_le (pool : BlockPool) (tokens : List Token) (start : Nat)
    (hashes : List UInt64) : (cachedRun pool tokens start hashes).length ≤ hashes.length := by
  induction hashes generalizing start with
  | nil => simp [cachedRun]
  | cons hash rest ih =>
    unfold cachedRun
    split
    · simp
    · simpa using ih (start + 1)

theorem getComputedBlocks_getElem?
    (found : (pool.getComputedBlocks tokens hashes)[offset]? = some index) :
    ∃ hash, hashes[offset]? = some hash ∧
      pool.getCachedBlock hash (blockTokens pool.blockSize tokens offset) = some index := by
  unfold getComputedBlocks at found
  split at found
  · simp at found
  obtain ⟨hash, keyed, cached⟩ := cachedRun_getElem? found
  rw [Nat.zero_add] at cached
  refine ⟨hash, ?_, cached⟩
  rw [getElem?_take] at keyed
  split at keyed
  · exact keyed
  · cases keyed

/-- A prefix hit always leaves the last token to be computed. -/
theorem getComputedBlocks_length (pool : BlockPool) (tokens : List Token)
    (hashes : List UInt64) (nonempty : 0 < tokens.length) :
    (pool.getComputedBlocks tokens hashes).length * pool.blockSize + 1 ≤ tokens.length := by
  unfold getComputedBlocks
  split
  · simp only [length_nil, Nat.zero_mul, Nat.zero_add]
    omega
  rename_i enough
  rw [not_or, Nat.not_lt] at enough
  have run := cachedRun_length_le pool tokens 0
    (hashes.take ((tokens.length - 1) / pool.blockSize))
  rw [length_take] at run
  have bound : (cachedRun pool tokens 0
      (hashes.take ((tokens.length - 1) / pool.blockSize))).length ≤
      (tokens.length - 1) / pool.blockSize := by omega
  have product := Nat.mul_le_mul_right pool.blockSize bound
  have floor := Nat.div_mul_le_self (tokens.length - 1) pool.blockSize
  dsimp only
  omega

theorem getComputedBlocks_length_le (pool : BlockPool) (tokens : List Token)
    (hashes : List UInt64) :
    (pool.getComputedBlocks tokens hashes).length * pool.blockSize ≤ tokens.length := by
  rcases Nat.eq_zero_or_pos tokens.length with empty | nonempty
  · have none : pool.getComputedBlocks tokens hashes = [] := by
      rw [getComputedBlocks, if_pos (.inr (by omega))]
    rw [none, length_nil, Nat.zero_mul]
    exact Nat.zero_le _
  · exact Nat.le_of_succ_le (pool.getComputedBlocks_length tokens hashes nonempty)

theorem Invariant.getComputedBlocks_registered {pending : List Nat}
    (inv : Invariant pool held pending) (member : index ∈ pool.getComputedBlocks tokens hashes) :
    (pool.block index).hash ≠ hashNone := by
  obtain ⟨offset, found⟩ := mem_iff_getElem?.mp member
  obtain ⟨hash, _, cached⟩ := getComputedBlocks_getElem? found
  obtain ⟨_, entry, _⟩ := mem_of_getCachedBlock cached
  obtain ⟨same, present⟩ := (inv.registered hash index).mp entry
  rw [same]
  exact present

theorem Invariant.numFree_touch (inv : Invariant pool held []) (bound : index < pool.numBlocks) :
    pool.numFree = (pool.touch index).numFree + if pool.refCount index = 0 then 1 else 0 := by
  obtain ⟨indices, represents, _, members⟩ := inv.linked
  simp only [append_nil] at members
  unfold numFree
  rw [touch_eq]
  by_cases free : pool.refCount index = 0
  · have member := (members index).mpr ⟨bound, free⟩
    have positive := length_pos_of_mem member
    simp only [free, ↓reduceIte]
    rw [represents.size, (represents.remove index).size, length_erase_of_mem member]
    omega
  · simp only [free, ↓reduceIte, Nat.add_zero]

/-- Touching a list of cached blocks takes at most the counted blocks out of the free list. -/
theorem Invariant.touches (hits : List Nat) (inv : Invariant pool held [])
    (bounds : ∀ index ∈ hits, index < pool.numBlocks) :
    Invariant (hits.foldl BlockPool.touch pool) (hits ++ held) [] ∧
      SameIndex pool (hits.foldl BlockPool.touch pool) ∧
      pool.numFree ≤ (hits.foldl BlockPool.touch pool).numFree +
        hits.countP (fun index => pool.refCount index = 0) := by
  induction hits generalizing pool held with
  | nil => exact ⟨inv, SameIndex.refl pool, Nat.le_refl _⟩
  | cons index rest ih =>
    have bound := bounds index (by simp)
    have same := touch_sameIndex pool index
    have moved := inv.numFree_touch bound
    obtain ⟨final, kept, room⟩ := ih (inv.touch bound) (by
      intro other member
      rw [same.numBlocks]
      exact bounds other (mem_cons_of_mem _ member))
    have fewer : rest.countP (fun other => (pool.touch index).refCount other = 0) ≤
        rest.countP (fun other => pool.refCount other = 0) := by
      apply countP_mono_left
      intro other _ zero
      simp only [decide_eq_true_eq] at zero ⊢
      rw [refCount_touch pool other bound] at zero
      split at zero
      · omega
      · exact zero
    refine ⟨?_, same.trans kept, ?_⟩
    · exact final.perm perm_middle
    · rw [foldl_cons, countP_cons]
      simp only [decide_eq_true_eq] at moved ⊢
      omega

/-- The table an allocation extends: the hits for a request without blocks. -/
def baseTable (state : KVRequestState) (computedBlocks : List Nat) : List Nat :=
  if state.blockIds.isEmpty then computedBlocks else state.blockIds

/-- The number of leading blocks counted as registered after an allocation. -/
def baseCached (state : KVRequestState) (computedBlocks : List Nat) : Nat :=
  if state.blockIds.isEmpty ∧ computedBlocks.isEmpty = false then computedBlocks.length
  else state.numCachedBlocks

theorem baseTable_length (state : KVRequestState) (computedBlocks : List Nat) :
    (baseTable state computedBlocks).length = state.blockIds.length +
      (if state.blockIds.isEmpty then computedBlocks.length else 0) := by
  unfold baseTable
  split
  · rename_i empty
    rw [List.isEmpty_iff.mp empty, length_nil, Nat.zero_add]
  · rfl

theorem mem_baseTable (member : index ∈ state.blockIds) :
    index ∈ baseTable state computedBlocks := by
  unfold baseTable
  split
  · rename_i empty
    rw [List.isEmpty_iff.mp empty] at member
    cases member
  · exact member

/-- Touching the hits before allocating keeps fresh blocks apart from them. -/
theorem Invariant.adoptHits (inv : Invariant pool (state.blockIds ++ held) [])
    (computedBlocks : List Nat) (bounds : ∀ index ∈ computedBlocks, index < pool.numBlocks) :
    ∃ touched,
      pool.adoptHits state computedBlocks =
        ({ blockIds := baseTable state computedBlocks,
           numCachedBlocks := baseCached state computedBlocks }, touched) ∧
      Invariant touched (baseTable state computedBlocks ++ held) [] ∧
      SameIndex pool touched ∧
      pool.numFree ≤ touched.numFree + (if state.blockIds.isEmpty then
        computedBlocks.countP (fun block => pool.refCount block = 0) else 0) := by
  unfold BlockPool.adoptHits baseTable baseCached
  by_cases empty : state.blockIds.isEmpty = true
  · have nil : state.blockIds = [] := List.isEmpty_iff.mp empty
    rw [nil, nil_append] at inv
    obtain ⟨after, same, room⟩ := inv.touches computedBlocks bounds
    refine ⟨computedBlocks.foldl BlockPool.touch pool, ?_, ?_, same, ?_⟩
    · by_cases missed : computedBlocks.isEmpty = true
      · rw [List.isEmpty_iff.mp missed]
        obtain ⟨blockIds, numCachedBlocks⟩ := state
        subst nil
        rfl
      · have hit : computedBlocks.isEmpty = false := by simpa using missed
        simp only [nil, isEmpty_nil, hit, and_self, ↓reduceIte, nil_append]
    · simpa only [empty, ↓reduceIte] using after
    · simpa only [empty, ↓reduceIte] using room
  · refine ⟨pool, ?_, ?_, SameIndex.refl pool, Nat.le_add_right _ _⟩
    · simp only [empty, Bool.false_eq_true, false_and, ↓reduceIte]
    · simpa only [empty, Bool.false_eq_true, ↓reduceIte] using inv

/-- Every block is in the free list or in a block table. -/
theorem Invariant.numBlocks_le (inv : Invariant pool held []) :
    pool.numBlocks ≤ pool.numFree + held.length := by
  obtain ⟨indices, represents, _, members⟩ := inv.linked
  have covered : List.range pool.numBlocks ⊆ indices ++ held := by
    intro index inside
    rw [mem_range] at inside
    by_cases used : pool.refCount index = 0
    · have free := (members index).mpr ⟨inside, used⟩
      rw [append_nil] at free
      exact mem_append_left _ free
    · rw [inv.counted] at used
      exact mem_append_right _ (count_pos_iff.mp (Nat.pos_of_ne_zero used))
  have short := (nodup_range.subperm covered).length_le
  rw [length_range, length_append] at short
  rw [numFree, represents.size]
  exact short

theorem allocateSlots_fits {nTotalTokens : Nat}
    (fits : (nTotalTokens + pool.blockSize - 1) / pool.blockSize -
        (baseTable state computedBlocks).length + (if state.blockIds.isEmpty then
          computedBlocks.countP (fun block => pool.refCount block = 0) else 0) ≤ pool.numFree) :
    ∃ kv fresh, pool.allocateSlots state nTotalTokens computedBlocks = (true, kv, fresh) := by
  unfold BlockPool.allocateSlots
  rw [← baseTable_length]
  dsimp only
  have count : (if (nTotalTokens + pool.blockSize - 1) / pool.blockSize >
      (baseTable state computedBlocks).length then
        (nTotalTokens + pool.blockSize - 1) / pool.blockSize -
          (baseTable state computedBlocks).length else 0) =
      (nTotalTokens + pool.blockSize - 1) / pool.blockSize -
        (baseTable state computedBlocks).length := by split <;> omega
  rw [count, if_neg (Nat.not_lt.mpr fits)]
  split
  · exact ⟨_, _, rfl⟩
  · exact ⟨_, _, rfl⟩

/-- What a successful `allocate_slots` does to the pool: the blocks `ids` were unused and
carry no hash now; all other entries are kept. -/
structure Allocated (pool fresh : BlockPool) (base ids : List Nat) : Prop where
  nodup : ids.Nodup
  unused : ∀ index ∈ ids, pool.refCount index = 0
  apart : ∀ index ∈ ids, index ∉ base
  hash : ∀ index ∈ ids, (fresh.block index).hash = hashNone
  entry : ∀ index, index ∉ ids → (fresh.block index).entry = (pool.block index).entry
  numBlocks : fresh.numBlocks = pool.numBlocks
  blockSize : fresh.blockSize = pool.blockSize
  caching : fresh.caching = pool.caching

theorem Invariant.allocateSlots (inv : Invariant pool (state.blockIds ++ held) [])
    (nTotalTokens : Nat) (computedBlocks : List Nat)
    (bounds : ∀ index ∈ computedBlocks, index < pool.numBlocks) :
    pool.allocateSlots state nTotalTokens computedBlocks = (false, state, pool) ∨
    ∃ ids fresh,
      pool.allocateSlots state nTotalTokens computedBlocks =
        (true, { blockIds := baseTable state computedBlocks ++ ids,
                 numCachedBlocks := baseCached state computedBlocks }, fresh) ∧
      ids.length = (nTotalTokens + pool.blockSize - 1) / pool.blockSize -
        (baseTable state computedBlocks).length ∧
      Allocated pool fresh (baseTable state computedBlocks) ids ∧
      Invariant fresh ((baseTable state computedBlocks ++ ids) ++ held) [] := by
  obtain ⟨touched, adopted, touchedInv, kept, room⟩ := inv.adoptHits computedBlocks bounds
  unfold BlockPool.allocateSlots
  rw [← baseTable_length, adopted]
  dsimp only
  generalize (nTotalTokens + pool.blockSize - 1) / pool.blockSize = needed
  generalize baseCached state computedBlocks = cached
  have count : (if needed > (baseTable state computedBlocks).length then
      needed - (baseTable state computedBlocks).length else 0) =
      needed - (baseTable state computedBlocks).length := by split <;> omega
  rw [count]
  generalize (if state.blockIds.isEmpty then
    computedBlocks.countP (fun block => pool.refCount block = 0) else 0) = freed at room ⊢
  by_cases fits : needed - (baseTable state computedBlocks).length + freed > pool.numFree
  · left
    rw [if_pos fits]
  right
  rw [if_neg fits]
  by_cases none : needed - (baseTable state computedBlocks).length = 0
  · rw [none]
    refine ⟨[], touched, ?_, rfl, ?_, ?_⟩
    · simp only [ne_eq, not_true_eq_false, ↓reduceIte, append_nil]
    · exact ⟨nodup_nil, by simp, by simp, by simp, fun index _ => kept.entry index,
        kept.numBlocks, kept.blockSize, kept.caching⟩
    · rwa [append_nil]
  · obtain ⟨ids, fresh, got, length, news, final⟩ := touchedInv.getNewBlocks
      (needed - (baseTable state computedBlocks).length) (baseTable state computedBlocks)
      (by omega)
    have outside : ∀ index ∈ ids, index ∉ baseTable state computedBlocks ++ held := by
      intro index member
      rw [← count_eq_zero, ← touchedInv.counted]
      exact news.unused index member
    refine ⟨ids, fresh, ?_, length, ⟨news.nodup, ?_, ?_, news.hash, ?_, ?_, ?_, ?_⟩, ?_⟩
    · rw [if_pos none, got]
    · intro index member
      rw [inv.counted, count_eq_zero]
      intro inside
      apply outside index member
      rcases mem_append.mp inside with own | others
      · exact mem_append_left _ (mem_baseTable own)
      · exact mem_append_right _ others
    · intro index member base
      exact outside index member (mem_append_left _ base)
    · intro index absent
      rw [news.other index absent, kept.entry]
    · rw [news.numBlocks, kept.numBlocks]
    · rw [news.blockSize, kept.blockSize]
    · rw [news.caching, kept.caching]
    · apply final.perm
      rw [← append_assoc]
      exact List.Perm.append_right held perm_append_comm

/-- What registering the table entries `first, …, first + count - 1` does to the pool: an
entry is kept, or it was free of a hash and now carries its place in the chain. -/
structure Committed (pool fresh : BlockPool) (state : KVRequestState) (tokens : List Token)
    (hashes : List UInt64) (salt : UInt64) (first count : Nat) : Prop where
  numBlocks : fresh.numBlocks = pool.numBlocks
  blockSize : fresh.blockSize = pool.blockSize
  caching : fresh.caching = pool.caching
  entry : ∀ block, (fresh.block block).entry = (pool.block block).entry ∨
    ∃ index, first ≤ index ∧ index < first + count ∧ state.blockIds[index]? = some block ∧
      (pool.block block).hash = hashNone ∧
      (fresh.block block).entry = (hashes.getD index hashNone,
        blockTokens pool.blockSize tokens index,
        some { salt := salt, chain := tokens.take ((index + 1) * pool.blockSize) })
  hash : pool.caching = true → ∀ index, first ≤ index → index < first + count →
    ∀ block, state.blockIds[index]? = some block → (fresh.block block).hash ≠ hashNone

theorem entry_hash (same : fresh.entry = old.entry) :
    fresh.hash = old.hash := congrArg Prod.fst same

theorem entry_owner (same : fresh.entry = old.entry) :
    fresh.owner = old.owner := congrArg (fun entry => entry.2.2) same

section

variable {state : KVRequestState} {tokens : List Token} {hashes : List UInt64} {salt : UInt64}

theorem Committed.refl (pool : BlockPool) (first : Nat) :
    Committed pool pool state tokens hashes salt first 0 :=
  ⟨rfl, rfl, rfl, fun _ => .inl rfl, fun _ index _ _ => by omega⟩

/-- Registering one more block of the table. -/
theorem Committed.cacheIndex {fresh : BlockPool} {first count : Nat}
    (before : Committed pool fresh state tokens hashes salt first count)
    (inside : first + count < state.blockIds.length)
    (present : hashes.getD (first + count) hashNone ≠ hashNone)
    (bounds : ∀ block ∈ state.blockIds, block < pool.numBlocks) :
    Committed pool (BlockPool.cacheIndex state tokens hashes salt fresh (first + count))
      state tokens hashes salt first (count + 1) := by
  have getD : state.blockIds[first + count]? = some (state.blockIds.getD (first + count) 0) := by
    rw [getD_eq_getElem?_getD, getElem?_eq_getElem inside, Option.getD_some]
  have bound : state.blockIds.getD (first + count) 0 < fresh.numBlocks := by
    rw [before.numBlocks]
    exact bounds _ (mem_of_getElem? getD)
  unfold BlockPool.cacheIndex
  rw [before.blockSize]
  generalize state.blockIds.getD (first + count) 0 = last at getD bound ⊢
  refine ⟨?_, ?_, ?_, ?_, ?_⟩
  · rw [(cacheBlock_sameLinks _ _ _ _ _).numBlocks, before.numBlocks]
  · rw [(cacheBlock_sameLinks _ _ _ _ _).blockSize, before.blockSize]
  · rw [(cacheBlock_sameLinks _ _ _ _ _).caching, before.caching]
  · intro block
    by_cases kept : last = block ∧ fresh.caching = true ∧ (fresh.block block).hash = hashNone
    · obtain ⟨same, on, unregistered⟩ := kept
      subst same
      right
      refine ⟨first + count, by omega, by omega, getD, ?_, ?_⟩
      · rcases before.entry last with equal | ⟨index, low, high, found, _, _⟩
        · rw [← entry_hash equal]
          exact unregistered
        · exact False.elim (before.hash (before.caching ▸ on) index low high last found
            unregistered)
      · rw [fresh.cacheBlock_block_same _ _ _ on unregistered bound]
        rfl
    · have same : (fresh.cacheBlock last (hashes.getD (first + count) hashNone)
          (blockTokens pool.blockSize tokens (first + count))
          { salt := salt, chain := tokens.take ((first + count + 1) * pool.blockSize) }).block
            block = fresh.block block := by
        by_cases here : last = block
        · subst here
          by_cases off : fresh.caching = false
          · rw [fresh.cacheBlock_of_uncached _ _ _ _ off]
          · rw [fresh.cacheBlock_of_registered]
            intro unregistered
            exact kept ⟨rfl, by simpa using off, unregistered⟩
        · exact fresh.cacheBlock_block_other _ _ _ here
      rw [same]
      rcases before.entry block with equal | ⟨index, low, high, rest⟩
      · exact .inl equal
      · exact .inr ⟨index, low, by omega, rest⟩
  · intro on index low high block found
    by_cases here : last = block
    · subst here
      by_cases unregistered : (fresh.block last).hash = hashNone
      · rw [fresh.cacheBlock_block_same _ _ _ (before.caching.trans on) unregistered bound]
        exact present
      · rw [fresh.cacheBlock_of_registered _ _ _ unregistered]
        exact unregistered
    · rw [fresh.cacheBlock_block_other _ _ _ here]
      have earlier : index < first + count := by
        by_contra later
        have equal : index = first + count := by omega
        rw [equal, getD] at found
        exact here (Option.some.inj found)
      exact before.hash on index low earlier block found

theorem Invariant.cacheIndices (inv : Invariant pool held [])
    (bounds : ∀ block ∈ state.blockIds, block < pool.numBlocks) (first count : Nat)
    (inside : first + count ≤ state.blockIds.length)
    (present : ∀ index < first + count, hashes.getD index hashNone ≠ hashNone) :
    Invariant ((List.range' first count).foldl
        (BlockPool.cacheIndex state tokens hashes salt) pool) held [] ∧
      Committed pool ((List.range' first count).foldl
        (BlockPool.cacheIndex state tokens hashes salt) pool)
        state tokens hashes salt first count := by
  induction count with
  | zero => exact ⟨inv, Committed.refl pool first⟩
  | succ count ih =>
    obtain ⟨middle, before⟩ := ih (by omega) (fun index low => present index (by omega))
    rw [range'_concat, Nat.one_mul, foldl_append, foldl_cons, foldl_nil]
    refine ⟨?_, before.cacheIndex (by omega) (present _ (by omega)) bounds⟩
    apply middle.cacheBlock _ (present _ (by omega))
    rw [before.numBlocks, getD_eq_getElem?_getD,
      getElem?_eq_getElem (show first + count < state.blockIds.length by omega),
      Option.getD_some]
    exact bounds _ (getElem_mem _)

/-- The first table entry that `cache_blocks` leaves alone. -/
def cacheStop (pool : BlockPool) (state : KVRequestState) (nTokensToCache : Nat)
    (hashes : List UInt64) : Nat :=
  if pool.caching then
    min (min (nTokensToCache / pool.blockSize) hashes.length) state.blockIds.length
  else 0

section

variable (pool : BlockPool) (state : KVRequestState) (nTokensToCache : Nat) (hashes : List UInt64)

theorem cacheStop_length :
    cacheStop pool state nTokensToCache hashes ≤ state.blockIds.length := by
  unfold cacheStop
  split <;> omega

theorem cacheStop_mul :
    cacheStop pool state nTokensToCache hashes * pool.blockSize ≤ nTokensToCache := by
  unfold cacheStop
  split
  · have floor := Nat.div_mul_le_self nTokensToCache pool.blockSize
    refine Nat.le_trans (Nat.mul_le_mul_right pool.blockSize ?_) floor
    omega
  · omega

end

theorem caching_of_cacheStop {pool : BlockPool} {state : KVRequestState} {nTokensToCache : Nat}
    {hashes : List UInt64} (positive : 0 < cacheStop pool state nTokensToCache hashes) :
    pool.caching = true := by
  unfold cacheStop at positive
  split at positive
  · assumption
  · omega

theorem Invariant.cacheBlocks (inv : Invariant pool (state.blockIds ++ held) [])
    (tokens : List Token) (salt : UInt64) (nTokensToCache : Nat)
    (present : ∀ hash ∈ hashes, hash ≠ hashNone) :
    ∃ fresh,
      pool.cacheBlocks state tokens nTokensToCache hashes salt =
        ({ state with
            numCachedBlocks := max state.numCachedBlocks
              (cacheStop pool state nTokensToCache hashes) }, fresh) ∧
      Invariant fresh (state.blockIds ++ held) [] ∧
      Committed pool fresh state tokens hashes salt state.numCachedBlocks
        (cacheStop pool state nTokensToCache hashes - state.numCachedBlocks) := by
  unfold BlockPool.cacheBlocks cacheStop
  by_cases off : pool.caching = false
  · refine ⟨pool, ?_, inv, ?_⟩
    · simp only [off, ↓reduceIte, Bool.false_eq_true, Nat.max_zero]
    · simp only [off, Bool.false_eq_true, ↓reduceIte, Nat.zero_sub]
      exact Committed.refl pool _
  · have on : pool.caching = true := by simpa using off
    simp only [on, Bool.true_eq_false, ↓reduceIte]
    generalize stopped : min (min (nTokensToCache / pool.blockSize) hashes.length)
      state.blockIds.length = stop
    by_cases none : stop ≤ state.numCachedBlocks
    · rw [show stop - state.numCachedBlocks = 0 by omega]
      exact ⟨pool, rfl, inv, Committed.refl pool _⟩
    have known : ∀ index < state.numCachedBlocks + (stop - state.numCachedBlocks),
        hashes.getD index hashNone ≠ hashNone := by
      intro index low
      have inside : index < hashes.length := by omega
      rw [getD_eq_getElem?_getD, getElem?_eq_getElem inside, Option.getD_some]
      exact present _ (getElem_mem inside)
    obtain ⟨final, committed⟩ := inv.cacheIndices
      (fun block member => inv.held_bound (mem_append_left _ member))
      state.numCachedBlocks (stop - state.numCachedBlocks) (by omega) known
    exact ⟨_, rfl, final, committed⟩

end

theorem Invariant.freeState (inv : Invariant pool (state.blockIds ++ held) [])
    (start : state.blockIds = [] → state.numCachedBlocks = 0) :
    ∃ fresh, pool.freeState state = ({}, fresh) ∧ Invariant fresh held [] ∧
      SameIndex pool fresh := by
  unfold BlockPool.freeState
  by_cases empty : state.blockIds.isEmpty = true
  · have nil : state.blockIds = [] := List.isEmpty_iff.mp empty
    refine ⟨pool, ?_, ?_, SameIndex.refl pool⟩
    · obtain ⟨blockIds, numCachedBlocks⟩ := state
      have zero : numCachedBlocks = 0 := start nil
      subst zero
      change blockIds = [] at nil
      subst nil
      rfl
    · rwa [nil, nil_append] at inv
  · have reversed : Invariant pool (state.blockIds.reverse ++ held) [] :=
      inv.perm (List.Perm.append_right held (reverse_perm _).symm)
    obtain ⟨final, same⟩ := reversed.freeBlocks state.blockIds.reverse
    refine ⟨pool.freeBlocks state.blockIds.reverse, ?_, final, same⟩
    simp only [empty, Bool.false_eq_true, ↓reduceIte]

end Iian.BlockPool
