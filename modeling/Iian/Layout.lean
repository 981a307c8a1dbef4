import Iian.Batch
import Iian.PrefixIndex
import Mathlib.Data.List.NodupEquivFin

/- How block tables, committed blocks and cell contents fit together: which blocks a
request owns alone, which it shares through the prefix cache, and for which tokens each
cell was last written. -/
namespace Iian

open List
open BlockPool (entry_hash entry_owner)

variable {M : Model}

/-- What the KV cache knows of a live request. `computed` counts the positions whose cells
have been written. -/
structure Seat where
  tokens : List Token
  spec : List Token
  salt : UInt64
  hashes : List UInt64
  kv : KVRequestState
  computed : Nat

namespace Seat

def fed (seat : Seat) : List Token := seat.tokens ++ seat.spec

abbrev table (seat : Seat) : List Nat := seat.kv.blockIds

end Seat

def Request.seat (r : Request M) : Seat where
  tokens := r.tokens
  spec := r.specTokens
  salt := r.opts.cacheSalt
  hashes := r.blockHashes
  kv := r.kv
  computed := r.numComputedTokens

/-- The tokens a cell was last written for. -/
def label (cells : Cells M) (slot : Nat) : Option (List Token) :=
  (cells.getD slot none).map Cell.fed

/-- The place of a request in the cache. Its first `numCachedBlocks` blocks are registered;
the others are its own, carry no hash, and hold what the request was fed. -/
structure Seat.Valid (pool : BlockPool) (cells : Cells M) (seat : Seat) : Prop where
  hashes : HashesOf pool.blockSize seat.salt seat.tokens seat.hashes
  start : seat.kv.blockIds = [] → seat.kv.numCachedBlocks = 0
  cached : seat.kv.numCachedBlocks * pool.blockSize ≤ seat.computed
  real : seat.kv.numCachedBlocks * pool.blockSize ≤ seat.tokens.length
  room : seat.computed ≤ seat.kv.blockIds.length * pool.blockSize
  fits : seat.computed ≤ seat.fed.length
  registered : ∀ index block, index < seat.kv.numCachedBlocks →
    seat.kv.blockIds[index]? = some block → (pool.block block).hash ≠ hashNone
  own : ∀ index block, seat.kv.numCachedBlocks ≤ index → seat.kv.blockIds[index]? = some block →
    (pool.block block).hash = hashNone ∧ pool.refCount block = 1
  labels : ∀ index block offset, seat.kv.numCachedBlocks ≤ index →
    seat.kv.blockIds[index]? = some block → offset < pool.blockSize →
    index * pool.blockSize + offset < seat.computed →
    label cells (block * pool.blockSize + offset) =
      some (seat.fed.take (index * pool.blockSize + offset + 1))

/-- The whole cache: the pool, the cells and the seats of all live requests. -/
structure Layout (pool : BlockPool) (cells : Cells M) (seats : List Seat)
    (known : Registration → Prop) : Prop where
  size : 0 < pool.blockSize
  sized : cells.length = pool.numBlocks * pool.blockSize
  linked : pool.Invariant (seats.flatMap Seat.table) []
  valid : ∀ seat ∈ seats, seat.Valid pool cells
  indexed : pool.Indexed known
  labels : ∀ block entry count offset, (pool.block block).hash ≠ hashNone →
    (pool.block block).owner = some entry → entry.chain.length = (count + 1) * pool.blockSize →
    offset < pool.blockSize →
    label cells (block * pool.blockSize + offset) =
      some (entry.chain.take (count * pool.blockSize + offset + 1))

/-- Cells hold what the network computes for the tokens they were written for, and shared
blocks belong to the request's own tokens. -/
structure Exact (pool : BlockPool) (cells : Cells M) (seats : List Seat) : Prop where
  sound : ∀ slot cell, cells.getD slot none = some cell →
    (M.cacheOf cell.fed).getLast? = some (some cell.kv)
  shared : ∀ seat ∈ seats, ∀ index block, index < seat.kv.numCachedBlocks →
    seat.kv.blockIds[index]? = some block → (pool.block block).owner = some
      { salt := seat.salt, chain := seat.tokens.take ((index + 1) * pool.blockSize) }

/-- What an operation on one request leaves alone in the tables `held` of the others. -/
structure BlockPool.Keeps (pool fresh : BlockPool) (held : List Nat) : Prop where
  size : fresh.blockSize = pool.blockSize
  registered : ∀ block ∈ held, (pool.block block).hash ≠ hashNone →
    (fresh.block block).entry = (pool.block block).entry
  own : ∀ block ∈ held, (pool.block block).hash = hashNone → pool.refCount block = 1 →
    (fresh.block block).hash = hashNone ∧ fresh.refCount block = 1

theorem index_unique {list : List Nat} {value i j : Nat} (left : list[i]? = some value)
    (right : list[j]? = some value) (once : list.count value ≤ 1) : i = j := by
  obtain ⟨low, here⟩ := List.getElem?_eq_some_iff.mp left
  obtain ⟨high, there⟩ := List.getElem?_eq_some_iff.mp right
  by_contra different
  have twice : Duplicate value list := by
    rw [duplicate_iff_exists_distinct_get]
    rcases Nat.lt_or_gt_of_ne different with before | after
    · exact ⟨⟨i, low⟩, ⟨j, high⟩, before, here.symm, there.symm⟩
    · exact ⟨⟨j, high⟩, ⟨i, low⟩, after, there.symm, here.symm⟩
  rw [duplicate_iff_two_le_count] at twice
  omega

namespace Seat.Valid

variable {pool fresh : BlockPool} {cells after : Cells M} {seat : Seat}

theorem cached_length (valid : seat.Valid pool cells) (size : 0 < pool.blockSize) :
    seat.kv.numCachedBlocks ≤ seat.kv.blockIds.length :=
  Nat.le_of_mul_le_mul_right (Nat.le_trans valid.cached valid.room) size

/-- A seat stays valid when its blocks are kept and its own cells are not written. -/
theorem frame (valid : seat.Valid pool cells) (keeps : pool.Keeps fresh seat.kv.blockIds)
    (labels : ∀ block ∈ seat.kv.blockIds, (pool.block block).hash = hashNone →
      pool.refCount block = 1 → ∀ offset < pool.blockSize,
      label after (block * pool.blockSize + offset) =
        label cells (block * pool.blockSize + offset)) : seat.Valid fresh after := by
  refine ⟨?_, valid.start, ?_, ?_, ?_, valid.fits, ?_, ?_, ?_⟩
  · rw [keeps.size]
    exact valid.hashes
  · rw [keeps.size]
    exact valid.cached
  · rw [keeps.size]
    exact valid.real
  · rw [keeps.size]
    exact valid.room
  · intro index block low found
    have present := valid.registered index block low found
    rw [entry_hash (keeps.registered block (mem_of_getElem? found) present)]
    exact present
  · intro index block high found
    obtain ⟨hash, once⟩ := valid.own index block high found
    exact keeps.own block (mem_of_getElem? found) hash once
  · intro index block offset high found inside below
    rw [keeps.size] at inside below ⊢
    obtain ⟨hash, once⟩ := valid.own index block high found
    rw [labels block (mem_of_getElem? found) hash once offset inside]
    exact valid.labels index block offset high found inside below

end Seat.Valid

namespace Layout

variable {pool fresh : BlockPool} {cells after : Cells M} {seat next : Seat}
  {rest seats other : List Seat} {known : Registration → Prop}

theorem perm (layout : Layout pool cells seats known) (same : seats.Perm other) :
    Layout pool cells other known :=
  { layout with
    linked := layout.linked.perm (same.flatMap_right Seat.table)
    valid := fun seat member => layout.valid seat (same.mem_iff.mpr member) }

section

variable (layout : Layout pool cells (seat :: rest) known)
include layout

theorem linked_cons : pool.Invariant (seat.kv.blockIds ++ rest.flatMap Seat.table) [] := by
  have linked := layout.linked
  rwa [flatMap_cons] at linked

/-- A block that only one table mentions is nowhere else. -/
theorem own_alone {block : Nat} (member : block ∈ seat.kv.blockIds) (once : pool.refCount block = 1) :
    seat.kv.blockIds.count block = 1 ∧ block ∉ rest.flatMap Seat.table := by
  rw [layout.linked_cons.counted, count_append] at once
  have positive := count_pos_iff.mpr member
  refine ⟨by omega, ?_⟩
  rw [← count_eq_zero]
  omega

section

variable (keeps : pool.Keeps fresh (rest.flatMap Seat.table))
    (number : fresh.numBlocks = pool.numBlocks)
    (linked : fresh.Invariant ((next :: rest).flatMap Seat.table) [])
    (valid : next.Valid fresh cells)
include keeps number linked valid

/-- Changing one request and the pool: the others only need their blocks kept. -/
theorem rebuild (indexed : fresh.Indexed known)
    (labels : ∀ block entry count offset, (fresh.block block).hash ≠ hashNone →
      (fresh.block block).owner = some entry →
      entry.chain.length = (count + 1) * pool.blockSize → offset < pool.blockSize →
      label cells (block * pool.blockSize + offset) =
        some (entry.chain.take (count * pool.blockSize + offset + 1))) :
    Layout fresh cells (next :: rest) known := by
  refine ⟨?_, ?_, linked, ?_, indexed, ?_⟩
  · rw [keeps.size]
    exact layout.size
  · rw [number, keeps.size]
    exact layout.sized
  · intro other member
    rcases mem_cons.mp member with same | inside
    · rw [same]
      exact valid
    refine (layout.valid other (mem_cons_of_mem _ inside)).frame ⟨keeps.size, ?_, ?_⟩
      (fun _ _ _ _ _ _ => rfl)
    · intro block here
      exact keeps.registered block (mem_flatMap.mpr ⟨other, inside, here⟩)
    · intro block here
      exact keeps.own block (mem_flatMap.mpr ⟨other, inside, here⟩)
  · rw [keeps.size]
    exact labels

/-- The same when the entries of registered blocks stay. -/
theorem replace (old : ∀ block, (fresh.block block).hash ≠ hashNone →
      (fresh.block block).entry = (pool.block block).entry) :
    Layout fresh cells (next :: rest) known := by
  apply layout.rebuild keeps number linked valid (layout.indexed.congr keeps.size old)
  intro block entry count offset present owner length inside
  have same := old block present
  rw [entry_hash same] at present
  rw [entry_owner same] at owner
  exact layout.labels block entry count offset present owner length inside

end

/-- The same for what the cells and the shared blocks hold. -/
theorem replaceExact (exact : Exact pool cells (seat :: rest))
    (keeps : pool.Keeps fresh (rest.flatMap Seat.table))
    (mine : ∀ index block, index < next.kv.numCachedBlocks →
      next.kv.blockIds[index]? = some block → (fresh.block block).owner = some
        { salt := next.salt, chain := next.tokens.take ((index + 1) * pool.blockSize) }) :
    Exact fresh cells (next :: rest) := by
  refine ⟨exact.sound, ?_⟩
  intro other member index block low found
  rw [keeps.size]
  rcases mem_cons.mp member with same | inside
  · rw [same] at low found ⊢
    exact mine index block low found
  have valid := layout.valid other (mem_cons_of_mem _ inside)
  have here : block ∈ rest.flatMap Seat.table :=
    mem_flatMap.mpr ⟨other, inside, mem_of_getElem? found⟩
  rw [entry_owner (keeps.registered block here (valid.registered index block low found))]
  exact exact.shared other (mem_cons_of_mem _ inside) index block low found

end

end Layout

end Iian
