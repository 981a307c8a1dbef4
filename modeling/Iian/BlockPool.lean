import Iian.BlockHash
import Iian.Lib.IntrusiveList

/- `BlockPool`: reference counts, the free list and the prefix-cache index.

The link fields `prev`, `next` and `in_free` of every block live in `free`, next to
`head_`, `tail_` and `n_free_`; the stored tokens of a block are its slice of
`block_tokens_`. A thrown exception is recorded in `thrown`. -/
namespace Iian

open Lib (IntrusiveList)

/-- Ghost record of the request a block was registered for: its cache salt and its
tokens up to and including the block. -/
@[ext] structure Registration where
  salt : UInt64
  chain : List Token
deriving DecidableEq, Repr

structure Block where
  refCnt : Nat := 0
  hash : UInt64 := hashNone
  tokens : List Token := []
  owner : Option Registration := none
deriving DecidableEq, Repr

structure BlockPool where
  blocks : List Block
  free : IntrusiveList
  hashToBlock : List (UInt64 × Nat) := []
  blockSize : Nat
  caching : Bool
  thrown : Option String := none
deriving DecidableEq, Repr

namespace BlockPool

variable (pool : BlockPool)

def new (numBlocks blockSize : Nat) (enableCaching : Bool) : BlockPool where
  blocks := List.replicate numBlocks {}
  free := (List.range numBlocks).foldl IntrusiveList.pushBack
    { nodes := List.replicate numBlocks {} }
  blockSize := blockSize
  caching := enableCaching

def numBlocks : Nat := pool.blocks.length

def numFree : Nat := pool.free.size

def block (index : Nat) : Block := pool.blocks.getD index {}

def setBlock (index : Nat) (value : Block) : BlockPool :=
  { pool with blocks := pool.blocks.set index value }

def refCount (index : Nat) : Nat := (pool.block index).refCnt

def listRemove (index : Nat) : BlockPool :=
  { pool with free := pool.free.remove index }

def listPushFront (index : Nat) : BlockPool :=
  { pool with free := pool.free.pushFront index }

def listPushBack (index : Nat) : BlockPool :=
  { pool with free := pool.free.pushBack index }

/-- Erases the first entry of the block's hash that names the block. -/
def evictHash (index : Nat) : BlockPool :=
  let old := pool.block index
  if old.hash = hashNone then pool
  else
    { pool.setBlock index { old with hash := hashNone } with
      hashToBlock := pool.hashToBlock.erase (old.hash, index) }

/-- The first entry of the hash whose stored tokens equal `tokens`. -/
def getCachedBlock (hash : UInt64) (tokens : List Token) : Option Nat :=
  if pool.caching then
    ((pool.hashToBlock.filter (fun entry => entry.1 = hash)).find?
      (fun entry => (pool.block entry.2).tokens = tokens)).map Prod.snd
  else none

def touch (index : Nat) : BlockPool :=
  let old := pool.block index
  let pool := if old.refCnt = 0 then pool.listRemove index else pool
  pool.setBlock index { old with refCnt := old.refCnt + 1 }

/-- One turn of the loop of `get_new_blocks`. -/
def getNewBlock : Option Nat × BlockPool :=
  match pool.free.popFront with
  | (none, _) => (none, pool)
  | (some index, free) =>
    let pool := { pool with free := free }
    let pool := if (pool.block index).hash ≠ hashNone then pool.evictHash index else pool
    (some index, pool.setBlock index { pool.block index with refCnt := 1 })

def getNewBlocksLoop : Nat → BlockPool → List Nat → List Nat × BlockPool
  | 0, pool, out => (out, pool)
  | count + 1, pool, out =>
    match pool.getNewBlock with
    | (none, pool) => (out, pool)
    | (some index, pool) => getNewBlocksLoop count pool (out ++ [index])

def getNewBlocks (count : Nat) (out : List Nat) : List Nat × BlockPool :=
  if count > pool.numFree then
    (out, { pool with thrown := some "BlockPool: out of blocks" })
  else getNewBlocksLoop count pool out

/-- The counting loop of `free_blocks`. The last component is false when it threw. -/
def dropRefs : List Nat → BlockPool → List Nat → List Nat →
    BlockPool × List Nat × List Nat × Bool
  | [], pool, uncached, cached => (pool, uncached, cached, true)
  | index :: rest, pool, uncached, cached =>
    let old := pool.block index
    if old.refCnt = 0 then
      ({ pool with thrown := some s!"BlockPool: double free of block {index}" },
        uncached, cached, false)
    else
      let pool := pool.setBlock index { old with refCnt := old.refCnt - 1 }
      if old.refCnt - 1 = 0 then
        if old.hash = hashNone ∨ pool.caching = false then
          dropRefs rest pool (uncached ++ [index]) cached
        else dropRefs rest pool uncached (cached ++ [index])
      else dropRefs rest pool uncached cached

def freeBlocks (blocks : List Nat) : BlockPool :=
  match dropRefs blocks pool [] [] with
  | (pool, _, _, false) => pool
  | (pool, uncached, cached, true) =>
    cached.foldl listPushBack (uncached.reverse.foldl listPushFront pool)

def cacheBlock (index : Nat) (hash : UInt64) (tokens : List Token) (owner : Registration) :
    BlockPool :=
  let old := pool.block index
  if pool.caching = false then pool
  else if old.hash ≠ hashNone then pool
  else
    { pool.setBlock index { old with hash := hash, tokens := tokens, owner := some owner } with
      hashToBlock := (hash, index) :: pool.hashToBlock }

end BlockPool

end Iian
