import Iian.KvCacheInvariant

/- What the prefix-cache index knows about the chains its blocks were registered for, and
when a hit returns a block of the right chain. -/
namespace Iian

open List

/-- `entry` is a leading part of a request's tokens, under the request's salt. -/
def Registration.PartOf (entry : Registration) (salt : UInt64) (tokens : List Token) : Prop :=
  entry.salt = salt ∧ entry.chain <+: tokens

theorem Registration.partOf_take (salt : UInt64) (tokens : List Token) (count : Nat) :
    Registration.PartOf { salt := salt, chain := tokens.take count } salt tokens :=
  ⟨rfl, List.take_prefix _ _⟩

/-- Different chains of full blocks have different chained hashes. -/
def CollisionFree (blockSize : Nat) (known : Registration → Prop) : Prop :=
  ∀ left right, known left → known right → ∀ i j,
    left.chain.length = (i + 1) * blockSize → right.chain.length = (j + 1) * blockSize →
    chainHash blockSize left.chain left.salt (i + 1) =
      chainHash blockSize right.chain right.salt (j + 1) → left = right

/-- The block hashes of a request are the chained hashes of its first full blocks. -/
def HashesOf (blockSize : Nat) (salt : UInt64) (tokens : List Token) (hashes : List UInt64) :
    Prop :=
  ∃ count, count * blockSize ≤ tokens.length ∧ hashes = chainHashes blockSize tokens salt count

theorem HashesOf.nil (blockSize : Nat) (salt : UInt64) (tokens : List Token) :
    HashesOf blockSize salt tokens [] :=
  ⟨0, by omega, rfl⟩

variable {blockSize : Nat} {salt : UInt64} {tokens : List Token} {hashes : List UInt64}
    {pool fresh : BlockPool} {known : Registration → Prop}

section

variable (same : HashesOf blockSize salt tokens hashes)

include same

theorem HashesOf.append (more : List Token) :
    HashesOf blockSize salt (tokens ++ more) hashes := by
  obtain ⟨count, inside, shape⟩ := same
  refine ⟨count, by rw [length_append]; omega, ?_⟩
  rw [shape]
  unfold chainHashes
  apply map_congr_left
  intro index member
  rw [mem_range] at member
  have low : (index + 1) * blockSize ≤ count * blockSize := Nat.mul_le_mul_right _ member
  exact (chainHash_append blockSize tokens more salt (Nat.le_trans low inside)).symm

theorem HashesOf.update :
    HashesOf blockSize salt tokens (updateHashes blockSize hashes tokens salt) := by
  obtain ⟨count, inside, shape⟩ := same
  refine ⟨max count (tokens.length / blockSize), ?_, ?_⟩
  · rcases Nat.le_total count (tokens.length / blockSize) with low | high
    · rw [Nat.max_eq_right low]
      exact Nat.div_mul_le_self _ _
    · rw [Nat.max_eq_left high]
      exact inside
  · rw [shape, updateHashes_chain]

theorem HashesOf.present :
    ∀ hash ∈ hashes, hash ≠ hashNone := by
  obtain ⟨count, _, shape⟩ := same
  intro hash member
  rw [shape, chainHashes, mem_map] at member
  obtain ⟨index, _, equal⟩ := member
  rw [← equal]
  exact chainHash_ne_none blockSize tokens salt index

end

/-- Each hash is that of the request's own chain up to its block. -/
theorem HashesOf.getElem? {blockSize : Nat} {salt : UInt64} {tokens : List Token}
    {hashes : List UInt64} (same : HashesOf blockSize salt tokens hashes) {index : Nat}
    {hash : UInt64} (found : hashes[index]? = some hash) :
    (index + 1) * blockSize ≤ tokens.length ∧
      hash = chainHash blockSize (tokens.take ((index + 1) * blockSize)) salt (index + 1) := by
  obtain ⟨count, inside, shape⟩ := same
  have low : index < count := by
    obtain ⟨bound, _⟩ := List.getElem?_eq_some_iff.mp found
    rw [shape, chainHashes_length] at bound
    exact bound
  have below : (index + 1) * blockSize ≤ count * blockSize := Nat.mul_le_mul_right _ low
  rw [shape, chainHashes_getElem? blockSize tokens salt low] at found
  refine ⟨Nat.le_trans below inside, ?_⟩
  rw [← Option.some.inj found]
  apply chainHash_congr
  rw [take_take, Nat.min_self]

namespace BlockPool

/-- Every registered block carries the hash and the tokens of the last block of a known
chain. -/
def Indexed (pool : BlockPool) (known : Registration → Prop) : Prop :=
  ∀ index, (pool.block index).hash ≠ hashNone → ∃ entry count,
    (pool.block index).owner = some entry ∧ known entry ∧
    entry.chain.length = (count + 1) * pool.blockSize ∧
    (pool.block index).hash = chainHash pool.blockSize entry.chain entry.salt (count + 1) ∧
    (pool.block index).tokens = blockTokens pool.blockSize entry.chain count

theorem new_indexed (numBlocks blockSize : Nat) (enableCaching : Bool)
    (known : Registration → Prop) : Indexed (new numBlocks blockSize enableCaching) known := by
  intro index registered
  rw [new_block] at registered
  exact (registered rfl).elim

section

variable (indexed : Indexed pool known)
include indexed

theorem Indexed.mono {more : Registration → Prop} (sub : ∀ entry, known entry → more entry) :
    Indexed pool more := by
  intro index registered
  obtain ⟨entry, count, owner, part, rest⟩ := indexed index registered
  exact ⟨entry, count, owner, sub entry part, rest⟩

/-- Only the entries of registered blocks matter. -/
theorem Indexed.congr (size : fresh.blockSize = pool.blockSize)
    (same : ∀ index, (fresh.block index).hash ≠ hashNone →
      (fresh.block index).entry = (pool.block index).entry) : Indexed fresh known := by
  intro index registered
  obtain ⟨hash, tokens, owner⟩ : (fresh.block index).hash = (pool.block index).hash ∧
      (fresh.block index).tokens = (pool.block index).tokens ∧
      (fresh.block index).owner = (pool.block index).owner := by
    have equal := same index registered
    simp only [Block.entry, Prod.mk.injEq] at equal
    exact equal
  rw [hash, tokens, owner, size]
  rw [hash] at registered
  exact indexed index registered

theorem Indexed.sameIndex (same : SameIndex pool fresh) : Indexed fresh known :=
  indexed.congr same.blockSize (fun index _ => same.entry index)

theorem Indexed.allocated {base ids : List Nat} (allocated : Allocated pool fresh base ids) :
    Indexed fresh known := by
  apply indexed.congr allocated.blockSize
  intro index registered
  apply allocated.entry
  intro member
  exact registered (allocated.hash index member)

theorem Indexed.committed {state : KVRequestState} {first count : Nat}
    (committed : Committed pool fresh state tokens hashes salt first count)
    (chains : HashesOf pool.blockSize salt tokens hashes)
    (own : ∀ entry, Registration.PartOf entry salt tokens → known entry) : Indexed fresh known := by
  intro block registered
  rcases committed.entry block with same | ⟨index, _, _, _, _, fields⟩
  · have hash := entry_hash same
    rw [hash] at registered
    obtain ⟨entry, number, rest⟩ := indexed block registered
    simp only [Block.entry, Prod.mk.injEq] at same
    obtain ⟨_, stored, owner⟩ := same
    refine ⟨entry, number, ?_⟩
    rw [hash, stored, owner, committed.blockSize]
    exact rest
  · simp only [Block.entry, Prod.mk.injEq] at fields
    obtain ⟨hash, stored, owner⟩ := fields
    -- the hash is present, so it is the one of this very chain
    obtain ⟨value, found⟩ : ∃ value, hashes[index]? = some value := by
      rw [hash, getD_eq_getElem?_getD] at registered
      cases found : hashes[index]? with
      | none =>
        rw [found] at registered
        exact (registered rfl).elim
      | some value => exact ⟨value, rfl⟩
    obtain ⟨room, equal⟩ := chains.getElem? found
    refine ⟨_, index, owner, own _ (Registration.partOf_take salt tokens _), ?_, ?_, ?_⟩
    · rw [committed.blockSize, length_take, Nat.min_eq_left room]
    · rw [hash, getD_eq_getElem?_getD, found, Option.getD_some, committed.blockSize]
      exact equal
    · rw [stored, committed.blockSize]
      exact (blockTokens_take pool.blockSize tokens (Nat.lt_succ_self index)).symm

/-- Without collisions a hit returns a block registered for the same salt and tokens. -/
theorem Indexed.hit {held : List Nat} (inv : Invariant pool held [])
    (free : CollisionFree pool.blockSize known)
    (chains : HashesOf pool.blockSize salt tokens hashes)
    (own : ∀ entry, Registration.PartOf entry salt tokens → known entry) {index block : Nat}
    (found : (pool.getComputedBlocks tokens hashes)[index]? = some block) :
    (index + 1) * pool.blockSize ≤ tokens.length ∧ (pool.block block).owner =
      some { salt := salt, chain := tokens.take ((index + 1) * pool.blockSize) } := by
  obtain ⟨hash, keyed, cached⟩ := getComputedBlocks_getElem? found
  obtain ⟨_, member, _⟩ := mem_of_getCachedBlock cached
  obtain ⟨same, present⟩ := (inv.registered hash block).mp member
  obtain ⟨entry, count, owner, part, length, chained, _⟩ := indexed block (same ▸ present)
  obtain ⟨room, equal⟩ := chains.getElem? keyed
  refine ⟨room, ?_⟩
  rw [owner]
  congr 1
  apply free entry _ part (own _ (Registration.partOf_take salt tokens _)) count index length
  · rw [length_take, Nat.min_eq_left room]
  · rw [← chained, same, equal]

end

end BlockPool

end Iian
