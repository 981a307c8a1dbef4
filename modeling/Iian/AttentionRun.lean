import Iian.AttentionPaths
import Iian.Lib.Maxima
import Iian.Progress

/- The attention paths on the micro-batches the engine builds. -/
namespace Iian

open List

variable {M : Model}

namespace Batch

theorem push_tiled {batch : Batch} {counts : List Nat} (tiled : batch.Tiled counts)
    (pool : BlockPool) (turn : Turn M) (some : 0 < turn.2.nNewTokens) :
    (batch.push pool turn.1 turn.2).Tiled (counts ++ [turn.2.nNewTokens]) := by
  refine ⟨?_, ?_, ?_⟩
  · exact forall_mem_append.mpr ⟨tiled.positive, forall_mem_singleton.mpr some⟩
  · rw [push_seqs, length_append, length_append, tiled.seqs]
    rfl
  rw [push_tokens, map_append, tiled.tokens, Lib.tile_concat, tiled.seqs, freshTokens, map_map]
  congr 1
  apply eq_replicate_iff.mpr
  refine ⟨by simp, ?_⟩
  intro s member
  obtain ⟨pos, _, rfl⟩ := mem_map.mp member
  rfl

section

variable (pool : BlockPool) (turns : List (Turn M))

theorem ofTurns_tiled (real : ∀ turn ∈ turns, turn.2.nSpec < turn.2.nNewTokens) :
    (ofTurns pool turns).Tiled (turns.map (fun turn => turn.2.nNewTokens)) := by
  induction turns using List.reverseRecOn with
  | nil => exact ⟨by simp, rfl, rfl⟩
  | append_singleton turns last ih =>
    have some := real last (mem_append_right _ mem_cons_self)
    rw [ofTurns_concat, map_append]
    exact push_tiled (ih (fun turn member => real turn (mem_append_left _ member))) pool last
      (by omega)

theorem ofTurns_seqs :
    (ofTurns pool turns).seqs = turns.map (seqInfo pool) := by
  induction turns using List.reverseRecOn with
  | nil => rfl
  | append_singleton turns last ih =>
    rw [ofTurns_concat, push_seqs, ih, map_append]
    rfl

/-- A query lies at a position of its own sequence. -/
theorem ofTurns_own :
    ∀ token ∈ (ofTurns pool turns).tokens,
      token.pos < ((ofTurns pool turns).seqOf token).cells.length ∧
        token.seqIdx < (ofTurns pool turns).seqs.length := by
  induction turns using List.reverseRecOn with
  | nil => simp [ofTurns]
  | append_singleton turns last ih =>
    intro token member
    rw [ofTurns_concat, push_tokens] at member
    rw [ofTurns_concat, seqOf, push_seqs, getD_eq_getElem?_getD, length_append, length_singleton]
    rcases mem_append.mp member with old | new
    · obtain ⟨short, inside⟩ := ih token old
      rw [seqOf, getD_eq_getElem?_getD] at short
      rw [getElem?_append_left inside]
      exact ⟨short, by omega⟩
    · obtain ⟨pos, range, rfl⟩ := mem_map.mp new
      rw [mem_range'_1] at range
      rw [getElem?_append_right (Nat.le_refl _), Nat.sub_self]
      refine ⟨?_, Nat.lt_succ_self _⟩
      change pos < ((List.range _).map _).length
      rw [length_map, length_range]
      exact range.2

end

/-- What the window of a batch is to satisfy in a cache of `numCells` cells. -/
structure Windowed (ub : Batch) (numCells : Nat) : Prop where
  covered : ub.Covered (ub.window numCells)
  inside : (ub.window numCells).kvStart + (ub.window numCells).nKv ≤ numCells
  aligned : 256 ∣ (ub.window numCells).nKv

/-- The window of a batch whose cells all lie in the cache. -/
theorem window_windowed {ub : Batch} {numCells : Nat} (aligned : 256 ∣ numCells)
    (filled : ub.tokens ≠ [])
    (slots : ∀ seq ∈ ub.seqs, ∀ slot ∈ seq.cells, ∃ cell, slot = some cell ∧ cell < numCells)
    (own : ∀ token ∈ ub.tokens, token.pos < (ub.seqOf token).cells.length ∧
      token.seqIdx < ub.seqs.length) : ub.Windowed numCells := by
  have listed : ∀ seq ∈ ub.seqs, ∀ slot ∈ seq.cells, ∃ cell, slot = some cell ∧
      cell ∈ ub.cells := by
    intro seq member slot inside
    obtain ⟨cell, same, _⟩ := slots seq member slot inside
    refine ⟨cell, same, mem_filterMap.mpr ⟨slot, ?_, same⟩⟩
    exact mem_flatMap.mpr ⟨seq, member, inside⟩
  have small : ∀ cell ∈ ub.cells, cell < numCells := by
    intro cell member
    obtain ⟨slot, inside, same⟩ := mem_filterMap.mp member
    obtain ⟨seq, among, place⟩ := mem_flatMap.mp inside
    obtain ⟨other, equal, bound⟩ := slots seq among slot place
    rw [id, equal] at same
    cases same
    exact bound
  -- the cache is not empty: the first query has a cell
  have first : ∃ cell, cell ∈ ub.cells := by
    obtain ⟨token, member⟩ := exists_mem_of_ne_nil _ filled
    obtain ⟨short, inside⟩ := own token member
    have among : ub.seqOf token ∈ ub.seqs := by
      rw [seqOf, getD_eq_getElem?_getD, getElem?_eq_getElem inside]
      exact getElem_mem inside
    obtain ⟨cell, _, there⟩ := listed _ among _ (getElem_mem short)
    exact ⟨cell, there⟩
  obtain ⟨some, there⟩ := first
  have zero : 0 ≤ ub.cellMin := foldlRecOn (motive := (0 ≤ ·)) ub.cells _ (by decide)
    fun least low cell _ => le_min low (Int.natCast_nonneg cell)
  have top : ub.cellMax < numCells := foldlRecOn (motive := (· < (numCells : Int))) ub.cells _
    (by omega) fun most high cell member => max_lt high (Int.ofNat_lt.mpr (small cell member))
  have least : ∀ cell ∈ ub.cells, ub.cellMin ≤ cell := fun _ => Lib.foldl_min_le Nat.cast ub.cells _
  have most : ∀ cell ∈ ub.cells, cell ≤ ub.cellMax := (Lib.le_foldl_max Nat.cast ub.cells _).2
  have bottom := least some there
  have high := most some there
  obtain ⟨blocks, rfl⟩ := aligned
  refine ⟨⟨filled, ?_, fun token member => (own token member).1⟩, ?_, ?_⟩
  · intro seq member slot place
    obtain ⟨cell, same, listing⟩ := listed seq member slot place
    have lower := least cell listing
    have upper := most cell listing
    refine ⟨cell, same, ?_⟩
    simp only [window]
    omega
  · simp only [window]
    omega
  · simp only [window]
    omega

end Batch

variable {s : Scheduler M} {cells : Cells M} {known : Registration → Prop}
    {turns : List (Batch.Turn M)}

section

variable (valid : s.Valid cells known) (scheduled : Batch.Turns s turns)
include valid scheduled

/-- A position a scheduled request reaches has a cell of the cache. -/
theorem Scheduler.Valid.cellOf {turn : Batch.Turn M} (member : turn ∈ turns) {pos : Nat}
    (reached : pos < turn.1.numComputedTokens + turn.2.nNewTokens) :
    ∃ cell, s.pool.cellOf turn.1.kv pos = some cell ∧
      cell < s.pool.numBlocks * s.pool.blockSize := by
  have size := valid.layout.size
  have room := (scheduled.ready turn member).room
  have inside : pos / s.pool.blockSize < turn.1.kv.blockIds.length :=
    (Nat.div_lt_iff_lt_mul size).mpr (by omega)
  have held : turn.1.kv.blockIds[pos / s.pool.blockSize] ∈
      (s.allRequests.map Request.seat).flatMap Seat.table := by
    refine mem_flatMap.mpr ⟨turn.1.seat, mem_map.mpr ⟨turn.1, ?_, rfl⟩, ?_⟩
    · exact mem_append_left _ (scheduled.running turn member)
    · exact getElem_mem inside
  have bound := valid.layout.linked.held_bound held
  have product := Nat.mul_le_mul_right s.pool.blockSize bound
  have offset := Nat.mod_lt pos size
  rw [Nat.succ_mul] at product
  refine ⟨_, by rw [BlockPool.cellOf, getElem?_eq_getElem inside, Option.map_some], ?_⟩
  omega

theorem Batch.build_tiled :
    (build s (turns.map Prod.snd)).Tiled (turns.map (fun turn => turn.2.nNewTokens)) := by
  obtain ⟨more, built⟩ := build_turns valid.unique scheduled
  have tiled := ofTurns_tiled s.pool turns scheduled.real
  rw [built]
  exact ⟨tiled.positive, tiled.seqs, tiled.tokens⟩

theorem Batch.build_windowed (filled : turns ≠ [])
    (aligned : 256 ∣ s.pool.numBlocks * s.pool.blockSize) :
    (build s (turns.map Prod.snd)).Windowed (s.pool.numBlocks * s.pool.blockSize) := by
  obtain ⟨more, built⟩ := build_turns valid.unique scheduled
  have tiled := ofTurns_tiled s.pool turns scheduled.real
  rw [built]
  refine window_windowed aligned ?_ ?_ (ofTurns_own s.pool turns)
  · obtain ⟨turn, member⟩ := exists_mem_of_ne_nil _ filled
    have real := scheduled.real turn member
    intro empty
    have tokens : (ofTurns s.pool turns).tokens.map BatchToken.seqIdx = _ := tiled.tokens
    rw [show (ofTurns s.pool turns).tokens = [] from empty] at tokens
    obtain ⟨index, found⟩ := mem_iff_getElem?.mp member
    have run : ∃ s, s ∈ Lib.tile (turns.map (fun turn => turn.2.nNewTokens)) := by
      refine ⟨index, mem_flatMap.mpr ⟨(turn.2.nNewTokens, index), ?_, ?_⟩⟩
      · rw [mem_zipIdx_iff_getElem?, getElem?_map, found]
        rfl
      · exact mem_replicate.mpr ⟨by dsimp only; omega, rfl⟩
    obtain ⟨other, inside⟩ := run
    rw [← tokens] at inside
    cases inside
  · intro seq member slot inside
    rw [show _ = _ from ofTurns_seqs s.pool turns] at member
    obtain ⟨turn, among, rfl⟩ := mem_map.mp member
    obtain ⟨pos, range, rfl⟩ := mem_map.mp inside
    exact valid.cellOf scheduled among (mem_range.mp range)

end

namespace Engine

/-- The micro-batch of the next step. -/
def nextBatch (e : Engine M) : Batch :=
  Batch.build e.ingest.sched.schedule.2
    (batchOrder e.ingest.cfg e.ingest.sched.schedule.1.scheduled)

def numCells (cfg : EngineConfig) : Nat := cfg.numBlocks * cfg.blockSize

/-- The sequences of every micro-batch are runs of its tokens, in order. -/
theorem run_tiled (M : Model) (cfg : EngineConfig) (actions : List Action) :
    ∃ counts, (run M cfg actions).nextBatch.Tiled counts := by
  have inv := run_invariant M cfg actions
  obtain ⟨planned, _, turns, order, ready⟩ :=
    inv.ingest.1.schedule runService_sound (inv.ingest_knows (run_knows M cfg actions))
  have tiled := Batch.build_tiled planned.sched ready
  rw [order] at tiled
  exact ⟨_, tiled⟩

/-- The window of every micro-batch contains its cells, lies in the cache and is a multiple of
256; and the three attention paths agree on it, unless a window or a bias does not fit. -/
theorem run_paths_agree (M : Model) (cfg : EngineConfig) (actions : List Action)
    (aligned : Nat.lcm cfg.blockSize 256 ∣ numCells cfg)
    (scheduled : (run M cfg actions).ingest.sched.schedule.1.scheduled ≠ [])
    (hp : HParams) (f16 : Bool) (il : Nat) :
    (run M cfg actions).nextBatch.Windowed (numCells cfg) ∧
      ((run M cfg actions).nextBatch.PathsAgree hp f16
          ((run M cfg actions).nextBatch.window (numCells cfg)) il ↔
        (run M cfg actions).nextBatch.Representable hp il) := by
  have inv := run_invariant M cfg actions
  obtain ⟨planned, _, turns, order, ready⟩ :=
    inv.ingest.1.schedule runService_sound (inv.ingest_knows (run_knows M cfg actions))
  have cells : (run M cfg actions).ingest.sched.schedule.2.pool.numBlocks *
      (run M cfg actions).ingest.sched.schedule.2.pool.blockSize = numCells cfg := by
    rw [← planned.sched.layout.sized]
    exact (congrArg List.length (congrArg Ambient.cells (run M cfg actions).ingest_ambient)).trans
      (run_cells_length M cfg actions)
  have filled : turns ≠ [] := by
    rintro rfl
    have perm := batchOrder_perm (run M cfg actions).ingest.cfg
      (run M cfg actions).ingest.sched.schedule.1.scheduled
    rw [← order] at perm
    exact scheduled perm.nil_eq.symm
  have windowed := Batch.build_windowed planned.sched ready filled
    (by rw [cells]; exact Nat.dvd_trans (Nat.dvd_lcm_right _ _) aligned)
  have tiled := Batch.build_tiled planned.sched ready
  rw [cells, order] at windowed
  rw [order] at tiled
  exact ⟨windowed, windowed.covered.agree_iff tiled⟩

def attentionConfig : EngineConfig where
  maxModelLen := 20
  blockSize := 4
  blockSize_pos := Nat.succ_pos 3
  numBlocks := 64

/-- Two prompts of different length, the first of which has been computed. -/
def twoPrompts : List Action :=
  [.submit [5, 5, 5] {} {}, .step {}, .submit [5, 5] {} {}]

theorem run_paths_agree_two :
    (run Model.spelling attentionConfig twoPrompts).nextBatch.Windowed 256 ∧
      (run Model.spelling attentionConfig twoPrompts).nextBatch.PathsAgree
        { nSwa := 2, isSwa := [true, false] } true
        ((run Model.spelling attentionConfig twoPrompts).nextBatch.window 256) 0 := by
  have agree := run_paths_agree Model.spelling attentionConfig twoPrompts (by decide)
    (by decide +kernel) { nSwa := 2, isSwa := [true, false] } true 0
  refine ⟨agree.1, agree.2.mpr ⟨fun _ => by decide, ?_⟩⟩
  intro token member pos short visible alibi
  cases alibi

/-- A window of `2 ^ 31` tokens reads as a negative number and hides every cell. -/
theorem run_window_negative :
    (run Model.spelling attentionConfig [.submit [5] {} {}]).nextBatch.tokens.map
        ((run Model.spelling attentionConfig [.submit [5] {} {}]).nextBatch.attended
          { nSwa := 0x80000000, isSwa := [false] } 0) = [[(0, 0)]] ∧
      (run Model.spelling attentionConfig [.submit [5] {} {}]).nextBatch.maskedRows
        { nSwa := 0x80000000, isSwa := [false] } true
        ((run Model.spelling attentionConfig [.submit [5] {} {}]).nextBatch.window 256) 0 =
          [(0, [])] ∧
      (run Model.spelling attentionConfig [.submit [5] {} {}]).nextBatch.gatherRows
        { nSwa := 0x80000000, isSwa := [false] } 0 = [(0, [])] ∧
      (run Model.spelling attentionConfig [.submit [5] {} {}]).nextBatch.pagedRows
        { nSwa := 0x80000000, isSwa := [false] } 0 = [(0, [])] := by
  decide +kernel

end Engine

end Iian
