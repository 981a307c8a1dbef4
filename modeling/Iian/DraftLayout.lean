import Iian.DraftModel
import Iian.EngineCompute

/- The cache of the draft model: every operation on one request keeps the layout of all of
them. Nothing is ever registered in this cache, so each request has its blocks alone. -/
namespace Iian

open List Lib

variable {M : Model}

variable {r next : DraftRequest} {ahead after : DraftRequest → Nat} {d : DraftModel M} {id : Nat}

namespace DraftRequest

/-- What the calls of the draft model leave alone in a request. -/
structure Same (r next : DraftRequest) : Prop where
  id : next.id = r.id
  tokens : next.tokens = r.tokens
  numComputedTokens : next.numComputedTokens = r.numComputedTokens
  numPreemptions : next.numPreemptions = r.numPreemptions
  isFinished : next.isFinished = r.isFinished
  isEmbedding : next.isEmbedding = r.isEmbedding
  grammar : next.grammar = r.grammar

theorem Same.refl (r : DraftRequest) : r.Same r := ⟨rfl, rfl, rfl, rfl, rfl, rfl, rfl⟩

theorem Same.trans {last : DraftRequest} (first : r.Same next) (second : next.Same last) :
    r.Same last :=
  ⟨second.id.trans first.id, second.tokens.trans first.tokens,
    second.numComputedTokens.trans first.numComputedTokens,
    second.numPreemptions.trans first.numPreemptions, second.isFinished.trans first.isFinished,
    second.isEmbedding.trans first.isEmbedding, second.grammar.trans first.grammar⟩

theorem Same.nTokens (same : r.Same next) : next.nTokens = r.nTokens :=
  congrArg List.length same.tokens

/-- The request is in the decode phase and may be drafted for. -/
structure Draftable (r : DraftRequest) : Prop where
  isFinished : r.isFinished = false
  isEmbedding : r.isEmbedding = false
  grammar : r.grammar = false
  computed : r.numComputedTokens + 1 = r.nTokens

theorem Same.draftable (same : r.Same next) (draftable : next.Draftable) : r.Draftable := by
  refine ⟨?_, ?_, ?_, ?_⟩
  · rw [← same.isFinished, draftable.isFinished]
  · rw [← same.isEmbedding, draftable.isEmbedding]
  · rw [← same.grammar, draftable.grammar]
  · rw [← same.numComputedTokens, ← same.nTokens, draftable.computed]

/-- The draft cells of the request reach as far as a call needs them. -/
def HasCells (nDraft : Nat) (r : DraftRequest) : Prop :=
  r.nTokens + nDraft ≤ r.draftKv.blockIds.length * 16

instance (nDraft : Nat) (r : DraftRequest) : Decidable (r.HasCells nDraft) :=
  inferInstanceAs (Decidable (_ ≤ _))

/-- The request has tokens that the draft model has not seen since the last preemption. -/
def Fresh (r : DraftRequest) : Prop :=
  r.draftEpoch = r.numPreemptions → r.draftComputed < r.nTokens

/-- The place of a request in the draft cache. Behind the real tokens the draft model has
been fed `ahead` of its own proposals. -/
def seat (ahead : DraftRequest → Nat) (r : DraftRequest) : Seat where
  tokens := r.tokens
  spec := r.specTokens
  salt := 0
  hashes := []
  kv := r.draftKv
  computed := r.draftComputed + ahead r

/-- The first `count` positions of a request as a sequence of a batch. -/
abbrev seqInfo (r : DraftRequest) (pool : BlockPool) (count : Nat) : SeqInfo where
  cells := (List.range count).map (pool.cellOf r.draftKv)
  fed := r.fed

theorem seqInfo_cells (r : DraftRequest) (ahead : DraftRequest → Nat) (pool : BlockPool)
    (count : Nat) : (r.seqInfo pool count).cells =
      (List.range count).map (pool.cellOf (r.seat ahead).kv) := rfl

/-- Between two calls only the real tokens count. -/
abbrev settled : DraftRequest → Nat := fun _ => 0

/-- The request is revised in place: the positions that stay computed were fed the same
tokens. -/
structure Revises (ahead after : DraftRequest → Nat) (r next : DraftRequest) : Prop where
  id : next.id = r.id
  kv : next.draftKv = r.draftKv
  tokens : r.tokens <+: next.tokens
  caught : next.draftComputed ≤ next.nTokens
  less : next.draftComputed + after next ≤ r.draftComputed + ahead r
  fits : next.draftComputed + after next ≤ next.fed.length
  same : next.fed.take (next.draftComputed + after next) =
    r.fed.take (next.draftComputed + after next)

theorem Revises.seat (revised : r.Revises ahead after next)
    (uncached : r.draftKv.numCachedBlocks = 0) (size : Nat) :
    (r.seat ahead).Revises size (next.seat after) := by
  refine ⟨revised.kv, rfl, HashesOf.nil _ _ _, revised.tokens, revised.less, ?_, revised.fits,
    revised.same⟩
  change r.draftKv.numCachedBlocks * size ≤ _
  rw [uncached, Nat.zero_mul]
  exact Nat.zero_le _

/-- Only real tokens stay computed: the proposals may change. -/
theorem Revises.real (id : next.id = r.id) (kv : next.draftKv = r.draftKv)
    (tokens : r.tokens <+: next.tokens)
    (less : next.draftComputed + after next ≤ r.draftComputed + ahead r)
    (caught : next.draftComputed + after next ≤ r.nTokens) : r.Revises ahead after next := by
  have length := tokens.length_le
  unfold nTokens at caught
  refine ⟨id, kv, tokens, ?_, less, ?_, ?_⟩
  · unfold nTokens
    omega
  · rw [fed, length_append]
    omega
  · obtain ⟨more, grown⟩ := tokens
    rw [fed, fed, take_append_of_le_length (by omega), take_append_of_le_length caught,
      ← grown, take_append_of_le_length caught]

section Cells

variable {pool : BlockPool} {cells : Cells M} {rest : List Seat} {known : Registration → Prop}
  {r : DraftRequest}

section

variable (layout : Layout pool cells (r.seat settled :: rest) known)
    (exact : Exact pool cells (r.seat settled :: rest))
include layout exact

theorem release_spec :
    ∃ fresh, r.release pool = (fresh, { r with draftKv := {}, draftComputed := 0 }) ∧
      fresh.blockSize = pool.blockSize ∧
      ∀ next : DraftRequest, next.draftKv = {} → next.draftComputed = 0 →
        Layout fresh cells (next.seat settled :: rest) known ∧
          Exact fresh cells (next.seat settled :: rest) := by
  obtain ⟨fresh, freed, size, others, kept⟩ := layout.release
  refine ⟨fresh, ?_, size, ?_⟩
  · change pool.freeState r.draftKv = _ at freed
    rw [release, freed]
  · intro next blank zero
    exact ⟨others.insert blank zero (HashesOf.nil _ _ _), Layout.insertExact (kept exact) blank⟩

/-- The state of a request fits its tokens before cells are asked for. A request whose
tokens have grown, or that was preempted, has tokens to be fed then. -/
theorem resync_spec (uncached : r.draftKv.numCachedBlocks = 0)
    (caught : r.draftComputed ≤ r.nTokens) :
    ∃ fresh next, r.resync pool = (fresh, next) ∧ fresh.blockSize = pool.blockSize ∧
      r.Same next ∧ next.draftEpoch = r.numPreemptions ∧
      next.draftKv.numCachedBlocks = 0 ∧ next.draftComputed ≤ next.nTokens ∧
      (r.Fresh → 0 < r.nTokens → next.draftComputed < next.nTokens) ∧
      Layout fresh cells (next.seat settled :: rest) known ∧
      Exact fresh cells (next.seat settled :: rest) := by
  unfold resync
  by_cases current : r.draftEpoch = r.numPreemptions
  · rw [if_neg (not_not.mpr current)]
    dsimp only
    rw [if_neg (Nat.not_lt.mpr caught)]
    exact ⟨pool, r, rfl, rfl, .refl r, current, uncached, caught, fun fresh _ => fresh current,
      layout, exact⟩
  · obtain ⟨fresh, released, size, placed⟩ := release_spec layout exact
    rw [if_pos current, released]
    dsimp only
    rw [if_neg (Nat.not_lt_zero _)]
    obtain ⟨after, kept⟩ := placed
      { r with draftKv := {}, draftComputed := 0, draftEpoch := r.numPreemptions } rfl rfl
    exact ⟨fresh, _, rfl, size, ⟨rfl, rfl, rfl, rfl, rfl, rfl, rfl⟩, rfl, rfl, Nat.zero_le _,
      fun _ positive => positive, after, kept⟩

/-- Cells are given to a request or it has too few of them. -/
theorem allocate_spec (size : pool.blockSize = 16) (uncached : r.draftKv.numCachedBlocks = 0)
    (nDraft : Nat) :
    (pool.allocateSlots r.draftKv (r.nTokens + nDraft) [] = (false, r.draftKv, pool) ∧
        ¬ r.HasCells nDraft) ∨
      ∃ kv fresh, pool.allocateSlots r.draftKv (r.nTokens + nDraft) [] = (true, kv, fresh) ∧
        fresh.blockSize = 16 ∧ kv.numCachedBlocks = 0 ∧
        r.nTokens + nDraft ≤ kv.blockIds.length * 16 ∧
        Layout fresh cells ({ r with draftKv := kv }.seat settled :: rest) known ∧
        Exact fresh cells ({ r with draftKv := kv }.seat settled :: rest) := by
  rcases layout.linked_cons.allocateSlots (r.nTokens + nDraft) [] (by simp) with
    refused | ⟨ids, fresh, granted, _⟩
  · refine .inl ⟨refused, ?_⟩
    intro enough
    change pool.allocateSlots r.draftKv _ _ = _ at refused
    have covered : (r.nTokens + nDraft + 15) / 16 ≤ r.draftKv.blockIds.length := by
      unfold HasCells at enough
      omega
    unfold BlockPool.allocateSlots at refused
    rw [size] at refused
    simp [Nat.not_lt.mpr covered] at refused
  · change pool.allocateSlots r.draftKv _ _ = _ at granted
    obtain ⟨after, room, same, kept⟩ := layout.extend granted
    refine .inr ⟨_, fresh, granted, same.trans size, ?_, ?_, after, kept exact⟩
    · rw [BlockPool.baseCached_nil]
      exact uncached
    · rw [same, size] at room
      exact room

end

end Cells

end DraftRequest

/-- Every token of the batch is one of the request of its sequence, goes into a cell of this
request, and only cells of this request are listed for it. -/
structure Batch.Owned (pool : BlockPool) (requests : List DraftRequest) (inBatch : List Nat)
    (ub : Batch) : Prop where
  formed : ub.WellFormed
  seqs : ub.seqs.length = inBatch.length
  tokens : ∀ token ∈ ub.tokens, ∃ r ∈ requests, ∃ count,
    inBatch[token.seqIdx]? = some r.id ∧ token.token = r.fed.getD token.pos 0 ∧
    token.slot = pool.cellOf r.draftKv token.pos ∧ token.pos < count ∧
    (ub.seqOf token).cells = (List.range count).map (pool.cellOf r.draftKv)

namespace Batch.Owned

variable {pool : BlockPool} {requests : List DraftRequest} {inBatch : List Nat} {ub : Batch}

theorem empty (pool : BlockPool) (requests : List DraftRequest) :
    Owned pool requests [] {} :=
  ⟨⟨nofun, nofun⟩, rfl, nofun⟩

/-- A request gets its sequence in the batch. -/
theorem feed (owned : Owned pool requests inBatch ub) (member : r ∈ requests) {seq : SeqInfo}
    {start count : Nat} {rows : List Nat} {next : Batch}
    (feeds : Feeds pool r.draftKv seq start count rows ub next)
    (cells : seq.cells = (List.range (start + count)).map (pool.cellOf r.draftKv))
    (fed : seq.fed = r.fed) : Owned pool requests (inBatch ++ [r.id]) next := by
  refine ⟨feeds.wellFormed owned.formed, ?_, ?_⟩
  · rw [feeds.seqs, length_append, length_append, owned.seqs]
    rfl
  intro token inside
  rw [feeds.tokens] at inside
  rcases mem_append.mp inside with old | new
  · obtain ⟨own, here, length, index, facts⟩ := owned.tokens token old
    have below := owned.formed.seqs token old
    rw [feeds.seqOf below]
    rw [owned.seqs] at below
    exact ⟨own, here, length, by rw [getElem?_append_left below, index], facts⟩
  · obtain ⟨pos, range, rfl⟩ := mem_map.mp new
    rw [mem_range'_1] at range
    refine ⟨r, member, start + count, ?_, by rw [fed], rfl, range.2, ?_⟩
    · dsimp only
      rw [owned.seqs, getElem?_append_right (Nat.le_refl _), Nat.sub_self]
      rfl
    · rw [feeds.seqOf_fresh rfl, cells]

/-- Counters of the requests may change. -/
theorem map (owned : Owned pool requests inBatch ub) {others : List DraftRequest}
    (same : ∀ r ∈ requests, ∃ other ∈ others,
      other.id = r.id ∧ other.fed = r.fed ∧ other.draftKv = r.draftKv) :
    Owned pool others inBatch ub := by
  refine ⟨owned.formed, owned.seqs, ?_⟩
  intro token inside
  obtain ⟨r, member, count, facts⟩ := owned.tokens token inside
  obtain ⟨other, here, id, fed, kv⟩ := same r member
  refine ⟨other, here, count, ?_⟩
  rw [id, fed, kv]
  exact facts

end Batch.Owned

/-- No two requests share a block, and the batch keeps them apart. -/
structure DraftRun.Separate (ran : DraftRun) : Prop where
  tables : (ran.requests.flatMap (fun r => r.draftKv.blockIds)).Nodup
  owned : ran.ub.Owned ran.pool ran.requests ran.inBatch

namespace DraftModel

open DraftRequest (settled)

/-- The requests have their places in the cache. `cells` are the cells once the batch that is
being assembled has been run. -/
structure Sound (d : DraftModel M) (cells : Cells M) (ahead : DraftRequest → Nat) : Prop where
  ids : d.requests.map DraftRequest.id = List.range d.requests.length
  size : d.pool.blockSize = 16
  uncached : ∀ r ∈ d.requests, r.draftKv.numCachedBlocks = 0
  caught : ∀ r ∈ d.requests, r.draftComputed ≤ r.nTokens
  layout : Layout d.pool cells (d.requests.map (DraftRequest.seat ahead)) (fun _ => False)
  exact : Exact d.pool cells (d.requests.map (DraftRequest.seat ahead))
  runs : ∀ ran ∈ d.runs, ran.Separate

/-- The places of all requests but one. -/
def others (d : DraftModel M) (ahead : DraftRequest → Nat) (r : DraftRequest) : List Seat :=
  (Keyed.remove DraftRequest.id r.id d.requests).map (DraftRequest.seat ahead)

theorem find_some (found : d.find id = some r) : r ∈ d.requests ∧ r.id = id := by
  have same := find?_some found
  exact ⟨mem_of_find?_eq_some found, by simpa using same⟩

theorem find_none (absent : d.find id = none) (member : r ∈ d.requests) : r.id ≠ id := by
  have none := find?_eq_none.mp absent r member
  simpa using none

theorem store_length (d : DraftModel M) (r : DraftRequest) :
    (d.store r).requests.length = d.requests.length :=
  length_map _

theorem mem_store {fresh : DraftRequest} (member : r ∈ (d.store fresh).requests) :
    r = fresh ∨ r ∈ d.requests ∧ r.id ≠ fresh.id :=
  Keyed.mem_replace member

theorem store_self (unique : (d.requests.map DraftRequest.id).Nodup) (member : r ∈ d.requests) :
    d.store r = d := by
  have same : Keyed.replace DraftRequest.id r d.requests = d.requests := by
    unfold Keyed.replace
    conv_rhs => rw [← map_id d.requests]
    apply map_congr_left
    intro other inside
    split
    · rename_i equal
      exact (inj_on_of_nodup_map unique inside member equal).symm
    · rfl
  rw [store, same]

namespace Sound

variable {d : DraftModel M} {cells after : Cells M} {ahead next : DraftRequest → Nat}

section

variable (sound : d.Sound cells ahead)
include sound

theorem unique : (d.requests.map DraftRequest.id).Nodup := by
  rw [sound.ids]
  exact nodup_range

theorem find (member : r ∈ d.requests) : d.find r.id = some r :=
  Keyed.find_of_mem sound.unique member

/-- The ids count the requests. -/
theorem id_lt (member : r ∈ d.requests) : r.id < d.requests.length := by
  have inside := mem_map_of_mem (f := DraftRequest.id) member
  rw [sound.ids] at inside
  exact mem_range.mp inside

theorem exists_id (known : id < d.requests.length) : ∃ r ∈ d.requests, r.id = id := by
  have inside := mem_range.mpr known
  rw [← sound.ids] at inside
  exact mem_map.mp inside

/-- No block is in two tables, or twice in one. -/
theorem tables : (d.requests.flatMap (fun r => r.draftKv.blockIds)).Nodup := by
  have linked := sound.layout.linked
  rw [flatMap_map] at linked
  change BlockPool.Invariant d.pool (d.requests.flatMap (fun r => r.draftKv.blockIds)) [] at linked
  rw [nodup_iff_count_le_one]
  intro block
  rw [← linked.counted]
  by_cases member : block ∈ d.requests.flatMap (fun r => r.draftKv.blockIds)
  · obtain ⟨r, inside, here⟩ := mem_flatMap.mp member
    obtain ⟨index, below, found⟩ := getElem_of_mem here
    have valid := sound.layout.valid _ (mem_map_of_mem inside)
    have own := valid.own index block (by
      change r.draftKv.numCachedBlocks ≤ index
      rw [sound.uncached r inside]
      exact Nat.zero_le _) (List.getElem?_eq_some_iff.mpr ⟨below, found⟩)
    exact Nat.le_of_eq own.2
  · rw [linked.counted, count_eq_zero_of_not_mem member]
    exact Nat.zero_le _

/-- A batch that keeps the requests apart is run. -/
theorem log {inBatch : List Nat} {ub : Batch} (owned : ub.Owned d.pool d.requests inBatch)
    (after : Cells M) :
    ({ d.log inBatch ub with cells := after } : DraftModel M).Sound cells ahead := by
  refine { sound with runs := ?_ }
  exact forall_mem_append.mpr ⟨sound.runs, forall_mem_singleton.mpr ⟨sound.tables, owned⟩⟩

end

variable (sound : d.Sound cells ahead)

include sound

/-- A request stands in front of the others. -/
theorem place {r : DraftRequest} (member : r ∈ d.requests) :
    Layout d.pool cells (r.seat ahead :: d.others ahead r) (fun _ => False) ∧
      Exact d.pool cells (r.seat ahead :: d.others ahead r) := by
  have split := (Keyed.perm_cons_remove sound.unique member).map (DraftRequest.seat ahead)
  exact ⟨sound.layout.perm split, sound.exact.perm split⟩

/-- One request and the pool change. -/
theorem store {fresh : DraftRequest} (member : r ∈ d.requests) (same : fresh.id = r.id)
    {pool : BlockPool} (size : pool.blockSize = 16) (uncached : fresh.draftKv.numCachedBlocks = 0)
    (caught : fresh.draftComputed ≤ fresh.nTokens)
    (others : ∀ other ∈ d.requests, other.id ≠ r.id → next other = ahead other)
    (layout : Layout pool after (fresh.seat next :: d.others ahead r) (fun _ => False))
    (exact : Exact pool after (fresh.seat next :: d.others ahead r)) :
    ({ d with pool := pool }.store fresh).Sound after next := by
  have alike : ∀ other ∈ d.requests, other.id ≠ r.id → other.seat next = other.seat ahead := by
    intro other inside different
    rw [DraftRequest.seat, DraftRequest.seat, others other inside different]
  have split := Keyed.replace_map_perm sound.unique member same alike
  refine ⟨?_, size, ?_, ?_, layout.perm split.symm, exact.perm split.symm, sound.runs⟩
  · rw [DraftModel.store, Keyed.replace_keys]
    refine sound.ids.trans ?_
    simp [Keyed.replace]
  · intro other inside
    rcases mem_store inside with rfl | ⟨old, _⟩
    · exact uncached
    · exact sound.uncached other old
  · intro other inside
    rcases mem_store inside with rfl | ⟨old, _⟩
    · exact caught
    · exact sound.caught other old

/-- Requests are revised in place. -/
theorem revise {f : DraftRequest → DraftRequest}
    (revised : ∀ r ∈ d.requests, r.Revises ahead next (f r)) :
    ({ d with requests := d.requests.map f } : DraftModel M).Sound cells next := by
  have seats : ∀ r ∈ d.requests,
      (r.seat ahead).Revises d.pool.blockSize ((f r).seat next) :=
    fun r member => (revised r member).seat (sound.uncached r member) _
  obtain ⟨layout, exact⟩ := sound.layout.reviseMap seats
  refine ⟨?_, sound.size, ?_, ?_, ?_, ?_, sound.runs⟩
  · rw [map_map, length_map, ← sound.ids]
    exact map_congr_left (fun r member => (revised r member).id)
  · intro r member
    obtain ⟨old, inside, rfl⟩ := mem_map.mp member
    rw [(revised old inside).kv]
    exact sound.uncached old inside
  · intro r member
    obtain ⟨old, inside, rfl⟩ := mem_map.mp member
    exact (revised old inside).caught
  · rw [map_map]
    exact layout
  · rw [map_map]
    exact exact sound.exact

/-- Between two calls the proposals do not count any more. -/
theorem settle : d.Sound cells settled := by
  have revised : ∀ r ∈ d.requests, r.Revises ahead settled (id r) := by
    intro r member
    exact .real rfl rfl (prefix_refl _) (Nat.le_add_right _ _) (sound.caught r member)
  have next := sound.revise revised
  rw [map_id] at next
  exact next

end Sound

end DraftModel

end Iian
