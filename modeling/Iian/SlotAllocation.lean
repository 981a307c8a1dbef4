import Iian.KvRun
import Mathlib.Algebra.Order.Ring.Nat

/- What a request gets from `allocate_slots`. The number of tokens is a 32-bit word here, as
in the source: rounding it up to blocks wraps around for the last few words. Lengths of
vectors are natural numbers. -/
namespace Iian.BlockPool

open List

/-- `n_blocks_needed`. -/
def blocksNeeded (blockSize : Nat) (nTotalTokens : UInt32) : Nat :=
  (nTotalTokens.toNat + blockSize - 1) % 2 ^ 32 / blockSize

/-- `allocate_slots`, as called with a word. -/
def allocateSlotsWord (pool : BlockPool) (state : KVRequestState) (nTotalTokens : UInt32)
    (computedBlocks : List Nat) : Bool × KVRequestState × BlockPool :=
  let nBlocksNeeded := blocksNeeded pool.blockSize nTotalTokens
  let nHave := state.blockIds.length + (if state.blockIds.isEmpty then computedBlocks.length else 0)
  let nNew := if nBlocksNeeded > nHave then nBlocksNeeded - nHave else 0
  let nTouchFree := if state.blockIds.isEmpty then
      computedBlocks.countP (fun block => pool.refCount block = 0) else 0
  if nNew + nTouchFree > pool.numFree then (false, state, pool)
  else
    let (state, pool) := pool.adoptHits state computedBlocks
    if nNew ≠ 0 then
      let (blockIds, pool) := pool.getNewBlocks nNew state.blockIds
      (true, { state with blockIds := blockIds }, pool)
    else (true, state, pool)

theorem blocksNeeded_eq {blockSize : Nat} {nTotalTokens : UInt32}
    (fits : nTotalTokens.toNat + blockSize ≤ 2 ^ 32) :
    blocksNeeded blockSize nTotalTokens = (nTotalTokens.toNat + blockSize - 1) / blockSize := by
  rw [blocksNeeded, Nat.mod_eq_of_lt (by omega)]

theorem allocateSlotsWord_eq (pool : BlockPool) (state : KVRequestState) {nTotalTokens : UInt32}
    (computedBlocks : List Nat) (fits : nTotalTokens.toNat + pool.blockSize ≤ 2 ^ 32) :
    pool.allocateSlotsWord state nTotalTokens computedBlocks =
      pool.allocateSlots state nTotalTokens.toNat computedBlocks := by
  unfold allocateSlotsWord allocateSlots
  rw [blocksNeeded_eq fits]

/-- A block of a grant is held once: it was in no table before. -/
theorem Invariant.fresh_count {pool after : BlockPool} {own base ids held : List Nat}
    (inv : Invariant pool (own ++ held) []) (allocated : Allocated pool after base ids)
    (final : Invariant after ((base ++ ids) ++ held) []) {block : Nat} (member : block ∈ ids) :
    after.refCount block = 1 := by
  have absent : block ∉ held := by
    have unused := allocated.unused block member
    rw [inv.counted, count_eq_zero] at unused
    exact fun inside => unused (mem_append_right _ inside)
  rw [final.counted, count_append, count_append,
    count_eq_zero_of_not_mem (allocated.apart block member),
    count_eq_one_of_mem allocated.nodup member, count_eq_zero_of_not_mem absent]

/-- The result of `allocate_slots` is all or nothing: a refusal changes nothing, and a grant
adds `fresh` blocks of its own to the table. The fresh blocks are none of `others`. -/
structure SlotsExact (pool : BlockPool) (state : KVRequestState) (nTotalTokens : UInt32)
    (computedBlocks others : List Nat) : Prop where
  refused : (pool.allocateSlotsWord state nTotalTokens computedBlocks).1 = false →
    (pool.allocateSlotsWord state nTotalTokens computedBlocks).2 = (state, pool)
  granted : ∀ next after,
    pool.allocateSlotsWord state nTotalTokens computedBlocks = (true, next, after) →
    ∃ fresh : List Nat,
      next.blockIds = (if state.blockIds = [] then computedBlocks else state.blockIds) ++ fresh ∧
      fresh.Nodup ∧ (∀ block ∈ fresh, pool.refCount block = 0) ∧
      (∀ block ∈ fresh, after.refCount block = 1 ∧ (after.block block).hash = hashNone) ∧
      (∀ block ∈ fresh, block ∉ others) ∧
      (nTotalTokens.toNat + pool.blockSize - 1) / pool.blockSize ≤ next.blockIds.length ∧
      after.thrown = none

/-- Every allocation is exact, as long as rounding the number of tokens up does not wrap
around. The hits of the prefix cache are kept apart when the request adopts them. -/
theorem allocateSlotsWord_exact {pool : BlockPool} {state : KVRequestState} {held : List Nat}
    (inv : Invariant pool (state.blockIds ++ held) []) {nTotalTokens : UInt32}
    (fits : nTotalTokens.toNat + pool.blockSize ≤ 2 ^ 32)
    (tokens : List Token) (hashes : List UInt64) :
    SlotsExact pool state nTotalTokens (pool.getComputedBlocks tokens hashes)
      (if state.blockIds = [] then pool.getComputedBlocks tokens hashes else state.blockIds) := by
  have bounds : ∀ block ∈ pool.getComputedBlocks tokens hashes, block < pool.numBlocks :=
    fun block member => pool.lt_numBlocks_of_hash (inv.getComputedBlocks_registered member)
  have base : (if state.blockIds = [] then pool.getComputedBlocks tokens hashes
      else state.blockIds) = baseTable state (pool.getComputedBlocks tokens hashes) := by
    simp [baseTable, List.isEmpty_iff]
  have cases := inv.allocateSlots nTotalTokens.toNat _ bounds
  rw [← allocateSlotsWord_eq pool state _ fits] at cases
  constructor
  · intro refused
    rcases cases with same | ⟨ids, after, shape, _⟩
    · rw [same]
    · rw [shape] at refused
      cases refused
  · intro next after granted
    rw [base]
    rcases cases with same | ⟨ids, final, shape, length, allocated, linked⟩
    · rw [same] at granted
      cases granted
    rw [shape] at granted
    obtain ⟨_, rfl, rfl⟩ := granted
    refine ⟨ids, rfl, allocated.nodup, allocated.unused, ?_, allocated.apart, ?_, linked.returned⟩
    · intro block member
      exact ⟨inv.fresh_count allocated linked member, allocated.hash block member⟩
    · rw [length_append, length]
      omega

/-- The two blocks a request has left in the prefix cache: a new one adopts the first and gets the
second as a fresh block. -/
theorem allocateSlotsWord_exact_leftover :
    let pool := (KvSystem.run 2 1 true [.submit [5, 6] 0, .prefill 0 2, .commit 0 2, .release 0]).pool
    let hits := pool.getComputedBlocks [5, 6] (chainHashes 1 [5, 6] 0 2)
    (pool.allocateSlotsWord {} 2 hits).2.1.blockIds = [0, 1] ∧ SlotsExact pool {} 2 hits hits := by
  generalize plan : [KvOp.submit [5, 6] 0, .prefill 0 2, .commit 0 2, .release 0] = ops
  have tables : (KvSystem.run 2 1 true ops).tables = [] := by
    rw [← plan]
    decide +kernel
  have inv := (KvSystem.run_invariant 2 1 true ops).pool
  rw [tables] at inv
  refine ⟨?_, @allocateSlotsWord_exact _ {} [] inv 2 ?_ [5, 6] (chainHashes 1 [5, 6] 0 2)⟩ <;>
    rw [← plan] <;> decide +kernel

/-- One request has left its two blocks in the prefix cache, another has taken one of them. -/
def leftoverOps : List KvOp :=
  [.submit [5, 6] 0, .prefill 0 2, .commit 0 2, .release 0, .submit [7] 0, .extend 1 1]

/-- The blocks of `leftoverOps`, with what the first request's tokens find in the cache. -/
def leftover : BlockPool := (KvSystem.run 2 1 true leftoverOps).pool

def leftoverHits : List Nat :=
  leftover.getComputedBlocks [5, 6] (chainHashes 1 [5, 6] 0 2)

theorem leftover_invariant : Invariant leftover ([1] ++ []) [] := by
  have inv := (KvSystem.run_invariant 2 1 true leftoverOps).pool
  have tables : (KvSystem.run 2 1 true leftoverOps).tables = [1] := by decide +kernel
  rw [tables] at inv
  exact inv

/-- A request that has a table does not adopt the hits, and one of them is handed out as a
fresh block. And for the last words rounding up wraps around to no blocks at all. -/
theorem allocateSlotsWord_inexact :
    (Invariant leftover ([1] ++ []) [] ∧
      ¬ SlotsExact leftover { blockIds := [1] } 2 leftoverHits leftoverHits) ∧
    (Invariant (new 1 16 true) ([] ++ []) [] ∧
      ¬ SlotsExact (new 1 16 true) {} 4294967295 [] []) := by
  refine ⟨⟨leftover_invariant, ?_⟩, new_invariant 1 16 true, ?_⟩
  · intro exact
    obtain ⟨fresh, table, _, _, _, apart, _⟩ := exact.granted _ _
      (show leftover.allocateSlotsWord { blockIds := [1] } 2 leftoverHits =
        (true, { blockIds := [1, 0] },
          (leftover.allocateSlotsWord { blockIds := [1] } 2 leftoverHits).2.2) by decide +kernel)
    have same : fresh = [0] := by simpa using table.symm
    exact apart 0 (by simp [same]) (by decide +kernel)
  · intro exact
    obtain ⟨_, _, _, _, _, _, enough, _⟩ := exact.granted {} (new 1 16 true) (by decide +kernel)
    revert enough
    decide

end Iian.BlockPool
