import Iian.BlockPool

/- The scheduler-facing part of `PagedKVCache`. The pool carries `block_size_` and the
caching flag, which the cache configuration only repeats. -/
namespace Iian

structure KVRequestState where
  blockIds : List Nat := []
  numCachedBlocks : Nat := 0
deriving DecidableEq, Repr

namespace BlockPool

variable (pool : BlockPool)

/-- The cell of token `tokenIdx`, undefined when the block table is too short. -/
def cellOf (state : KVRequestState) (tokenIdx : Nat) : Option Nat :=
  state.blockIds[tokenIdx / pool.blockSize]?.map
    (fun block => block * pool.blockSize + tokenIdx % pool.blockSize)

/-- The loop of `get_computed_blocks`: it stops at the first block that is not cached. -/
def cachedRun (pool : BlockPool) (tokens : List Token) : Nat → List UInt64 → List Nat
  | _, [] => []
  | index, hash :: rest =>
    match pool.getCachedBlock hash (blockTokens pool.blockSize tokens index) with
    | none => []
    | some block => block :: cachedRun pool tokens (index + 1) rest

/-- The cached blocks of the longest cached prefix that leaves the last token out; the
function's result is their number times the block size. -/
def getComputedBlocks (tokens : List Token) (hashes : List UInt64) : List Nat :=
  if pool.caching = false ∨ tokens.length < 2 then []
  else
    let maxHit := tokens.length - 1
    let nBlocksMax := maxHit / pool.blockSize
    cachedRun pool tokens 0 (hashes.take nBlocksMax)

/-- The part of `allocate_slots` that hands the hits to a request without blocks. -/
def adoptHits (state : KVRequestState) (computedBlocks : List Nat) : KVRequestState × BlockPool :=
  if state.blockIds.isEmpty ∧ computedBlocks.isEmpty = false then
    ({ blockIds := state.blockIds ++ computedBlocks, numCachedBlocks := computedBlocks.length },
      computedBlocks.foldl touch pool)
  else (state, pool)

/-- `allocate_slots`; the result is false, with nothing changed, when the pool cannot
satisfy the request. -/
def allocateSlots (state : KVRequestState) (nTotalTokens : Nat) (computedBlocks : List Nat) :
    Bool × KVRequestState × BlockPool :=
  let nBlocksNeeded := (nTotalTokens + pool.blockSize - 1) / pool.blockSize
  let nHave := state.blockIds.length + (if state.blockIds.isEmpty then computedBlocks.length else 0)
  let nNew := if nBlocksNeeded > nHave then nBlocksNeeded - nHave else 0
  -- cached blocks in the free list leave it as well when they are touched
  let nTouchFree := if state.blockIds.isEmpty then
      computedBlocks.countP (fun block => pool.refCount block = 0) else 0
  if nNew + nTouchFree > pool.numFree then (false, state, pool)
  else
    let (state, pool) := pool.adoptHits state computedBlocks
    if nNew ≠ 0 then
      let (blockIds, pool) := pool.getNewBlocks nNew state.blockIds
      (true, { state with blockIds := blockIds }, pool)
    else (true, state, pool)

/-- Registers block `index` of a request's table; `salt` is only recorded. -/
def cacheIndex (state : KVRequestState) (tokens : List Token) (hashes : List UInt64)
    (salt : UInt64) (pool : BlockPool) (index : Nat) : BlockPool :=
  pool.cacheBlock (state.blockIds.getD index 0) (hashes.getD index hashNone)
    (blockTokens pool.blockSize tokens index)
    { salt := salt, chain := tokens.take ((index + 1) * pool.blockSize) }

def cacheBlocks (state : KVRequestState) (tokens : List Token) (nTokensToCache : Nat)
    (hashes : List UInt64) (salt : UInt64) : KVRequestState × BlockPool :=
  if pool.caching = false then (state, pool)
  else
    let nFull := min (nTokensToCache / pool.blockSize) hashes.length
    let stop := min nFull state.blockIds.length
    let indices := List.range' state.numCachedBlocks (stop - state.numCachedBlocks)
    ({ state with numCachedBlocks := max state.numCachedBlocks stop },
      indices.foldl (cacheIndex state tokens hashes salt) pool)

/-- `PagedKVCache::free`: the table is returned in reverse, so its tail is evicted first. -/
def freeState (state : KVRequestState) : KVRequestState × BlockPool :=
  if state.blockIds.isEmpty then (state, pool)
  else ({ blockIds := [], numCachedBlocks := 0 }, pool.freeBlocks state.blockIds.reverse)

end BlockPool

end Iian
