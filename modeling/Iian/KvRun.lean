import Iian.PrefixIndex
import Mathlib.Data.List.Perm.Basic

/- Whole runs of the KV cache: any number of requests and any sequence of the operations
the scheduler issues for them. -/
namespace Iian

open List

structure KvRequest where
  tokens : List Token
  salt : UInt64
  hashes : List UInt64 := []
  kv : KVRequestState := {}
deriving DecidableEq, Repr

/-- The pool and every request of the run, in the order of their submission. A request
without blocks is waiting or has been released. -/
structure KvSystem where
  pool : BlockPool
  requests : List KvRequest := []
deriving DecidableEq, Repr

/-- The operations the scheduler issues. A request is named by its number. -/
inductive KvOp
  | submit (tokens : List Token) (salt : UInt64)
  | append (request : Nat) (token : Token)
  | prefill (request nTotalTokens : Nat)
  | extend (request nTotalTokens : Nat)
  | commit (request nTokensToCache : Nat)
  | release (request : Nat)
deriving DecidableEq, Repr

namespace KvRequest

/-- Phase 2 of `schedule`: hash, look the prefix up and allocate. -/
def prefill (nTotalTokens : Nat) (pool : BlockPool) (request : KvRequest) :
    KvRequest × BlockPool :=
  let hashes := updateHashes pool.blockSize request.hashes request.tokens request.salt
  let computedBlocks := pool.getComputedBlocks request.tokens hashes
  let (_, kv, pool) := pool.allocateSlots request.kv nTotalTokens computedBlocks
  ({ request with hashes := hashes, kv := kv }, pool)

/-- Phase 1 of `schedule`. -/
def extend (nTotalTokens : Nat) (pool : BlockPool) (request : KvRequest) :
    KvRequest × BlockPool :=
  let (_, kv, pool) := pool.allocateSlots request.kv nTotalTokens []
  ({ request with kv := kv }, pool)

/-- `update_after_step`. -/
def commit (nTokensToCache : Nat) (pool : BlockPool) (request : KvRequest) :
    KvRequest × BlockPool :=
  let hashes := updateHashes pool.blockSize request.hashes request.tokens request.salt
  let (kv, pool) := pool.cacheBlocks request.kv request.tokens nTokensToCache hashes request.salt
  ({ request with hashes := hashes, kv := kv }, pool)

/-- `preempt` and `finish_request`. -/
def release (pool : BlockPool) (request : KvRequest) : KvRequest × BlockPool :=
  let (kv, pool) := pool.freeState request.kv
  ({ request with kv := kv }, pool)

def append (token : Token) (pool : BlockPool) (request : KvRequest) : KvRequest × BlockPool :=
  ({ request with tokens := request.tokens ++ [token] }, pool)

end KvRequest

namespace KvSystem

def update (system : KvSystem) (index : Nat)
    (change : BlockPool → KvRequest → KvRequest × BlockPool) : KvSystem :=
  match system.requests[index]? with
  | none => system
  | some request =>
    let (request, pool) := change system.pool request
    { pool := pool, requests := system.requests.set index request }

def step (system : KvSystem) : KvOp → KvSystem
  | .submit tokens salt =>
    { system with requests := system.requests ++ [{ tokens := tokens, salt := salt }] }
  | .append request token => system.update request (KvRequest.append token)
  | .prefill request nTotalTokens => system.update request (KvRequest.prefill nTotalTokens)
  | .extend request nTotalTokens => system.update request (KvRequest.extend nTotalTokens)
  | .commit request nTokensToCache => system.update request (KvRequest.commit nTokensToCache)
  | .release request => system.update request KvRequest.release

def run (numBlocks blockSize : Nat) (enableCaching : Bool) (ops : List KvOp) : KvSystem :=
  ops.foldl step { pool := BlockPool.new numBlocks blockSize enableCaching }

/-- The blocks in the tables of all requests, with repetitions. -/
def tables (system : KvSystem) : List Nat :=
  system.requests.flatMap (fun request => request.kv.blockIds)

/-- The block chains of the run. -/
def Known (system : KvSystem) (entry : Registration) : Prop :=
  ∃ request ∈ system.requests, entry.PartOf request.salt request.tokens

structure Invariant (system : KvSystem) (blockSize : Nat) : Prop where
  size : system.pool.blockSize = blockSize
  pool : system.pool.Invariant system.tables []
  hashes : ∀ request ∈ system.requests,
    HashesOf blockSize request.salt request.tokens request.hashes
  start : ∀ request ∈ system.requests, request.kv.blockIds = [] → request.kv.numCachedBlocks = 0
  indexed : system.pool.Indexed system.Known

end KvSystem

namespace KvRequest

/-- The facts about one request that an operation on it relies on; `held` lists the blocks
in the tables of the others. -/
structure Valid (pool : BlockPool) (held : List Nat) (request : KvRequest) : Prop where
  linked : pool.Invariant (request.kv.blockIds ++ held) []
  hashes : HashesOf pool.blockSize request.salt request.tokens request.hashes
  start : request.kv.blockIds = [] → request.kv.numCachedBlocks = 0

/-- What an operation on a request does, seen from the rest of the system. -/
structure Change (pool : BlockPool) (held : List Nat) (old : KvRequest)
    (result : KvRequest × BlockPool) : Prop where
  valid : Valid result.2 held result.1
  blockSize : result.2.blockSize = pool.blockSize
  salt : result.1.salt = old.salt
  tokens : old.tokens <+: result.1.tokens
  indexed : ∀ known : Registration → Prop,
    (∀ entry, entry.PartOf old.salt old.tokens → known entry) →
    pool.Indexed known → result.2.Indexed known

section

variable {pool : BlockPool} {held : List Nat} {request : KvRequest}

theorem start_base {state : KVRequestState} (start : state.blockIds = [] → state.numCachedBlocks = 0)
    {computedBlocks ids : List Nat}
    (empty : BlockPool.baseTable state computedBlocks ++ ids = []) :
    BlockPool.baseCached state computedBlocks = 0 := by
  obtain ⟨base, _⟩ := append_eq_nil_iff.mp empty
  unfold BlockPool.baseTable at base
  unfold BlockPool.baseCached
  by_cases nil : state.blockIds.isEmpty = true
  · rw [if_pos nil] at base
    rw [base, if_neg (by simp)]
    exact start (List.isEmpty_iff.mp nil)
  · rw [if_neg nil] at base
    exact (nil (List.isEmpty_iff.mpr base)).elim

variable (valid : Valid pool held request)

include valid

/-- Allocation with hits found in the same pool state, or with none. -/
theorem Valid.allocate (hashes : List UInt64)
    (chains : HashesOf pool.blockSize request.salt request.tokens hashes) (nTotalTokens : Nat)
    (computedBlocks : List Nat) (hits : ∀ block ∈ computedBlocks, block < pool.numBlocks) :
    Change pool held request
      ({ request with
          hashes := hashes
          kv := (pool.allocateSlots request.kv nTotalTokens computedBlocks).2.1 },
        (pool.allocateSlots request.kv nTotalTokens computedBlocks).2.2) := by
  rcases valid.linked.allocateSlots nTotalTokens computedBlocks hits with
    same | ⟨ids, fresh, shape, _, allocated, final⟩
  · rw [same]
    exact ⟨⟨valid.linked, chains, valid.start⟩, rfl, rfl, prefix_refl _, fun _ _ kept => kept⟩
  rw [shape]
  refine ⟨⟨final, ?_, start_base valid.start⟩, allocated.blockSize, rfl, prefix_refl _,
    fun _ _ kept => kept.allocated allocated⟩
  rw [allocated.blockSize]
  exact chains

theorem Valid.prefill (nTotalTokens : Nat) :
    Change pool held request (KvRequest.prefill nTotalTokens pool request) := by
  apply valid.allocate _ valid.hashes.update nTotalTokens
  intro block member
  exact pool.lt_numBlocks_of_hash (valid.linked.getComputedBlocks_registered member)

theorem Valid.extend (nTotalTokens : Nat) :
    Change pool held request (KvRequest.extend nTotalTokens pool request) :=
  valid.allocate request.hashes valid.hashes nTotalTokens [] (by simp)

theorem Valid.commit (nTokensToCache : Nat) :
    Change pool held request (KvRequest.commit nTokensToCache pool request) := by
  have chains := valid.hashes.update
  obtain ⟨fresh, shape, final, committed⟩ := valid.linked.cacheBlocks request.tokens
    request.salt nTokensToCache chains.present
  unfold KvRequest.commit
  dsimp only
  rw [shape]
  refine ⟨⟨final, ?_, ?_⟩, committed.blockSize, rfl, prefix_refl _,
    fun _ own kept => kept.committed committed chains own⟩
  · rw [committed.blockSize]
    exact chains
  intro empty
  change request.kv.blockIds = [] at empty
  change max request.kv.numCachedBlocks _ = 0
  rw [valid.start empty]
  unfold BlockPool.cacheStop
  split
  · rw [empty, length_nil, Nat.min_zero, Nat.max_self]
  · rfl

theorem Valid.release :
    Change pool held request (KvRequest.release pool request) := by
  obtain ⟨fresh, shape, final, same⟩ := valid.linked.freeState valid.start
  unfold KvRequest.release
  rw [shape]
  refine ⟨⟨final, ?_, fun _ => rfl⟩, same.blockSize, rfl, prefix_refl _,
    fun _ _ kept => kept.sameIndex same⟩
  rw [same.blockSize]
  exact valid.hashes

theorem Valid.append (token : Token) :
    Change pool held request (KvRequest.append token pool request) :=
  ⟨⟨valid.linked, valid.hashes.append [token], valid.start⟩, rfl, rfl, prefix_append _ _,
    fun _ _ kept => kept⟩

end

end KvRequest

variable {system : KvSystem} {blockSize : Nat}

namespace KvSystem

theorem tables_perm (system : KvSystem) {index : Nat} {request : KvRequest}
    (found : system.requests[index]? = some request) :
    system.tables.Perm (request.kv.blockIds ++
      (system.requests.eraseIdx index).flatMap (fun other => other.kv.blockIds)) := by
  obtain ⟨bound, same⟩ := List.getElem?_eq_some_iff.mp found
  have split := (getElem_cons_eraseIdx_perm bound).flatMap_right
    (fun other : KvRequest => other.kv.blockIds)
  rw [same, flatMap_cons] at split
  exact split.symm

theorem tables_set_perm (system : KvSystem) {index : Nat} (pool : BlockPool)
    (request : KvRequest) (bound : index < system.requests.length) :
    KvSystem.tables { pool := pool, requests := system.requests.set index request } |>.Perm
      (request.kv.blockIds ++
        (system.requests.eraseIdx index).flatMap (fun other => other.kv.blockIds)) := by
  have split := (set_perm_cons_eraseIdx bound request).flatMap_right
    (fun other : KvRequest => other.kv.blockIds)
  rw [flatMap_cons] at split
  exact split

/-- An operation on one request keeps the invariant of the system. -/
theorem Invariant.update (inv : system.Invariant blockSize) (index : Nat)
    (change : BlockPool → KvRequest → KvRequest × BlockPool)
    (keeps : ∀ held request, KvRequest.Valid system.pool held request →
      KvRequest.Change system.pool held request (change system.pool request)) :
    (system.update index change).Invariant blockSize := by
  unfold KvSystem.update
  cases found : system.requests[index]? with
  | none => exact inv
  | some request =>
    obtain ⟨bound, _⟩ := List.getElem?_eq_some_iff.mp found
    have member : request ∈ system.requests := mem_of_getElem? found
    have step := keeps _ request ⟨inv.pool.perm (system.tables_perm found),
      inv.size ▸ inv.hashes request member, inv.start request member⟩
    obtain ⟨⟨linked, hashes, start⟩, size, salt, tokens, indexed⟩ := step
    dsimp only
    rw [size, inv.size] at hashes
    refine ⟨size.trans inv.size, linked.perm (system.tables_set_perm _ _ bound).symm, ?_, ?_, ?_⟩
    · intro other inside
      rcases mem_or_eq_of_mem_set inside with old | new
      · exact inv.hashes other old
      · rw [new]
        exact hashes
    · intro other inside
      rcases mem_or_eq_of_mem_set inside with old | new
      · exact inv.start other old
      · rw [new]
        exact start
    · -- chains known before are known after: the request keeps its salt and only grows
      have grown : ∀ entry, system.Known entry → KvSystem.Known
          { pool := (change system.pool request).2,
            requests := system.requests.set index (change system.pool request).1 } entry := by
        rintro entry ⟨other, inside, part⟩
        obtain ⟨place, here⟩ := mem_iff_getElem?.mp inside
        by_cases same : index = place
        · subst same
          have equal : other = request := Option.some.inj (here.symm.trans found)
          refine ⟨_, mem_set bound _, ?_⟩
          rw [equal] at part
          exact ⟨part.1.trans salt.symm, part.2.trans tokens⟩
        · have kept : (system.requests.set index (change system.pool request).1)[place]? =
              some other := by
            rw [getElem?_set_ne same]
            exact here
          exact ⟨other, mem_of_getElem? kept, part⟩
      refine (indexed _ ?_ inv.indexed).mono grown
      intro entry part
      exact ⟨request, member, part⟩

theorem Invariant.submit {system : KvSystem} {blockSize : Nat}
    (inv : system.Invariant blockSize) (tokens : List Token) (salt : UInt64) :
    (system.step (.submit tokens salt)).Invariant blockSize := by
  refine ⟨inv.size, ?_, ?_, ?_, ?_⟩
  · have same : KvSystem.tables (system.step (.submit tokens salt)) = system.tables := by
      simp [KvSystem.tables, KvSystem.step]
    rw [same]
    exact inv.pool
  · exact forall_mem_append.mpr ⟨inv.hashes, forall_mem_singleton.mpr (HashesOf.nil _ _ _)⟩
  · refine forall_mem_append.mpr ⟨inv.start, forall_mem_singleton.mpr ?_⟩
    intro _
    rfl
  · refine inv.indexed.mono ?_
    rintro entry ⟨request, member, part⟩
    exact ⟨request, mem_append_left _ member, part⟩

theorem Invariant.step (inv : system.Invariant blockSize) (op : KvOp) :
    (system.step op).Invariant blockSize := by
  cases op with
  | submit tokens salt => exact inv.submit tokens salt
  | append request token => exact inv.update request _ (fun _ _ valid => valid.append token)
  | prefill request nTotalTokens =>
    exact inv.update request _ (fun _ _ valid => valid.prefill nTotalTokens)
  | extend request nTotalTokens =>
    exact inv.update request _ (fun _ _ valid => valid.extend nTotalTokens)
  | commit request nTokensToCache =>
    exact inv.update request _ (fun _ _ valid => valid.commit nTokensToCache)
  | release request => exact inv.update request _ (fun _ _ valid => valid.release)

theorem run_invariant (numBlocks blockSize : Nat) (enableCaching : Bool) (ops : List KvOp) :
    (run numBlocks blockSize enableCaching ops).Invariant blockSize := by
  refine List.foldlRecOn (motive := (Invariant · blockSize)) ops step ?_ fun _ inv op _ => inv.step op
  exact ⟨rfl, BlockPool.new_invariant _ _ _, by simp, by simp, BlockPool.new_indexed _ _ _ _⟩

end KvSystem

/-- The representation invariant of the pool, in the terms of its data structure; `tables`
lists every occurrence of a block in a block table. -/
structure BlockPool.WellFormed (pool : BlockPool) (tables : List Nat) : Prop where
  /-- Both walks over the free list end and visit the same blocks, each once. -/
  list : ∃ order : List Nat, order.Nodup ∧ pool.numFree = order.length ∧
    (∀ steps ≥ pool.numBlocks, pool.free.walkNext steps pool.free.head = order ∧
      pool.free.walkPrev steps pool.free.tail = order.reverse) ∧
    ∀ block < pool.numBlocks, (block ∈ order ↔ (pool.free.node block).linked = true)
  free : ∀ block < pool.numBlocks, ((pool.free.node block).linked = true ↔ pool.refCount block = 0)
  counts : ∀ block, pool.refCount block = tables.count block
  index : ∀ hash block, pool.hashToBlock.count (hash, block) =
    if (pool.block block).hash = hash ∧ hash ≠ hashNone then 1 else 0
  thrown : pool.thrown = none
  released : tables = [] → pool.numFree = pool.numBlocks

theorem BlockPool.Invariant.wellFormed {pool : BlockPool} {tables : List Nat}
    (inv : pool.Invariant tables []) : pool.WellFormed tables := by
  obtain ⟨order, represents, nodup, members⟩ := inv.linked
  rw [append_nil] at nodup members
  refine ⟨⟨order, nodup, represents.size, ?_, ?_⟩, ?_, inv.counted, ?_, inv.returned, ?_⟩
  · intro steps enough
    rw [ge_iff_le, ← inv.sized] at enough
    exact represents.walks enough
  · intro block _
    exact (represents.linked_iff block).symm
  · intro block bound
    rw [represents.linked_iff, members]
    exact and_iff_right bound
  · intro hash block
    split
    · rename_i registered
      exact count_eq_one_of_mem inv.indexed ((inv.registered hash block).mpr registered)
    · rename_i unregistered
      rw [count_eq_zero, inv.registered]
      exact unregistered
  · intro empty
    -- with no table left every count is zero, so the list is a permutation of all blocks
    have all : order.Perm (List.range pool.numBlocks) := by
      rw [perm_ext_iff_of_nodup nodup nodup_range]
      intro block
      rw [members, mem_range, inv.counted, empty, count_nil]
      exact and_iff_left rfl
    rw [numFree, represents.size, all.length_eq, length_range]

/-- For every number of requests and every sequence of operations the free list, the
reference counts and the index agree, and no exception is thrown. -/
theorem KvSystem.run_wellFormed (numBlocks blockSize : Nat) (enableCaching : Bool)
    (ops : List KvOp) :
    (run numBlocks blockSize enableCaching ops).pool.WellFormed
      (run numBlocks blockSize enableCaching ops).tables :=
  (run_invariant numBlocks blockSize enableCaching ops).pool.wellFormed

/-- A hit returns a block registered for the salt and the tokens of the request that asks,
in every run whose block chains have different hashes. -/
theorem KvSystem.getComputedBlocks_sound (numBlocks blockSize : Nat) (enableCaching : Bool)
    (ops : List KvOp)
    (free : CollisionFree blockSize (run numBlocks blockSize enableCaching ops).Known)
    (request : KvRequest)
    (member : request ∈ (run numBlocks blockSize enableCaching ops).requests) (index block : Nat)
    (hit : ((run numBlocks blockSize enableCaching ops).pool.getComputedBlocks request.tokens
      (updateHashes blockSize request.hashes request.tokens request.salt))[index]? = some block) :
    (index + 1) * blockSize ≤ request.tokens.length ∧
      ((run numBlocks blockSize enableCaching ops).pool.block block).owner =
        some { salt := request.salt, chain := request.tokens.take ((index + 1) * blockSize) } := by
  have inv := run_invariant numBlocks blockSize enableCaching ops
  have size := inv.size
  generalize run numBlocks blockSize enableCaching ops = system at *
  subst size
  apply inv.indexed.hit inv.pool free (inv.hashes request member).update _ hit
  intro entry part
  exact ⟨request, member, part⟩

/-- A second request with the tokens of a committed one. -/
def reuseOps : List KvOp :=
  [.submit [1, 2, 3] 0, .prefill 0 3, .commit 0 3, .submit [1, 2, 3] 0]

theorem reuseOps_collisionFree : CollisionFree 2 (KvSystem.run 2 2 true reuseOps).Known := by
  have same : ∀ request ∈ (KvSystem.run 2 2 true reuseOps).requests,
      request.salt = 0 ∧ request.tokens = [1, 2, 3] := by decide +kernel
  have only : ∀ entry, (KvSystem.run 2 2 true reuseOps).Known entry → ∀ count,
      entry.chain.length = (count + 1) * 2 → entry = { salt := 0, chain := [1, 2] } := by
    rintro entry ⟨request, member, salt, leading⟩ count length
    obtain ⟨zero, tokens⟩ := same request member
    rw [tokens] at leading
    have short : entry.chain.length ≤ 3 := leading.length_le
    have chain := prefix_iff_eq_take.mp leading
    rw [show entry.chain.length = 2 by omega] at chain
    exact Registration.ext (salt.trans zero) chain
  intro left right leftKnown rightKnown i j leftLength rightLength _
  rw [only left leftKnown i leftLength, only right rightKnown j rightLength]

theorem KvSystem.getComputedBlocks_sound_reuse :
    ((run 2 2 true reuseOps).pool.block 0).owner = some { salt := 0, chain := [1, 2] } :=
  (getComputedBlocks_sound 2 2 true reuseOps reuseOps_collisionFree
    { tokens := [1, 2, 3], salt := 0 } (by decide +kernel) 0 0 (by decide +kernel)).2

/-- Two blocks of sixteen tokens with the same hash under the empty parent and salt 0. -/
def collidingBlocks : List Token × List Token :=
  ([1, 2, 3, 4, 5, 6, 7, 8, 161, 42, 129, 252, 11, 161, 92, 223],
    [1, 2, 3, 4, 5, 6, 7, 8, 158, 215, 129, 15, 26, 106, 72, 226])

example : hashBlock hashNone collidingBlocks.1 0 = hashBlock hashNone collidingBlocks.2 0 := by
  decide +kernel

/-- The first request registers a block that follows the first colliding block, the second
registers the other colliding block, and the third continues that one in the same way. -/
def collisionOps : List KvOp :=
  let next : List Token := List.replicate 16 9
  [.submit (collidingBlocks.1 ++ next ++ [7]) 0, .prefill 0 33, .commit 0 33,
    .submit (collidingBlocks.2 ++ [7]) 0, .prefill 1 17, .commit 1 17,
    .submit (collidingBlocks.2 ++ next ++ [7]) 0]

/-- The third request is handed the block that was computed behind the first one's tokens. -/
theorem KvSystem.getComputedBlocks_collision :
    ¬ ∀ request ∈ (run 8 16 true collisionOps).requests, ∀ index block,
      ((run 8 16 true collisionOps).pool.getComputedBlocks request.tokens
        (updateHashes 16 request.hashes request.tokens request.salt))[index]? = some block →
      ((run 8 16 true collisionOps).pool.block block).owner =
        some { salt := request.salt, chain := request.tokens.take ((index + 1) * 16) } := by
  intro sound
  have wrong := sound
    { tokens := collidingBlocks.2 ++ List.replicate 16 9 ++ [7], salt := 0 } (by decide +kernel)
    1 1 (by decide +kernel)
  revert wrong
  decide +kernel

end Iian
