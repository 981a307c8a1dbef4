import Iian.EngineRun

/- What a step writes: never a cell of a block that is shared or registered. -/
namespace Iian

open List Lib

variable {M : Model}

/-- `slot` lies in a block with one reference and no hash. -/
def BlockPool.OwnCell (pool : BlockPool) (slot : Nat) : Prop :=
  slot < pool.numBlocks * pool.blockSize ∧ pool.refCount (slot / pool.blockSize) = 1 ∧
    (pool.block (slot / pool.blockSize)).hash = hashNone

variable {turn : Batch.Turn M}

namespace Scheduler

/-- The cells a scheduled request is to be fed into, in order. -/
def entryWrites (s : Scheduler M) (entry : ScheduledRequest) : List (Option Nat) :=
  match s.find entry.req with
  | none => [none]
  | some r => (List.range' r.numComputedTokens entry.nNewTokens).map (s.pool.cellOf r.kv)

/-- The cells a step writes. -/
def stepWrites (s : Scheduler M) (scheduled : List ScheduledRequest) : List (Option Nat) :=
  scheduled.flatMap s.entryWrites

variable {s : Scheduler M} {cells : Cells M} {known : Registration → Prop}
  {turns : List (Batch.Turn M)}

section

variable (valid : s.Valid cells known) (scheduled : Batch.Turns s turns)
include valid scheduled

theorem Valid.entryWrites (member : turn ∈ turns) :
    s.entryWrites turn.2 = (List.range' turn.1.numComputedTokens turn.2.nNewTokens).map
      (s.pool.cellOf turn.1.kv) := by
  rw [Scheduler.entryWrites, ← scheduled.handle turn member,
    valid.find (scheduled.running turn member)]

/-- A position a scheduled request is to be fed has a cell, in a block of the request alone. -/
theorem Valid.writes_own (member : turn ∈ turns) {pos : Nat} (low : turn.1.numComputedTokens ≤ pos)
    (high : pos < turn.1.numComputedTokens + turn.2.nNewTokens) :
    ∃ slot, s.pool.cellOf turn.1.kv pos = some slot ∧ s.pool.OwnCell slot := by
  have changes := store_changes valid.unique (scheduled.running turn member) s.pool turn.1 rfl
  have layout := changes.layout valid.layout
  have size := layout.size
  have seat := layout.valid turn.1.seat mem_cons_self
  obtain ⟨block, found, cell, hash, once⟩ := layout.ownCell (Nat.le_trans seat.cached low)
    (Nat.lt_of_lt_of_le high (scheduled.ready turn member).room)
  have offset := Nat.mod_lt pos size
  have quotient : (block * s.pool.blockSize + pos % s.pool.blockSize) / s.pool.blockSize =
      block := by
    rw [Nat.mul_comm, Nat.mul_add_div size, Nat.div_eq_of_lt offset, Nat.add_zero]
  have bound : block < s.pool.numBlocks := s.pool.lt_numBlocks_of_refCount (by omega)
  have product := Nat.mul_le_mul_right s.pool.blockSize bound
  rw [Nat.succ_mul] at product
  refine ⟨_, cell, by omega, ?_, ?_⟩
  · rw [quotient]
    exact once
  · rw [quotient]
    exact hash

/-- Two positions that are fed in one step never share a cell. -/
theorem Valid.writes_apart {other : Batch.Turn M} (member : turn ∈ turns) (inside : other ∈ turns)
    {pos place : Nat} (low : turn.1.numComputedTokens ≤ pos)
    (high : pos < turn.1.numComputedTokens + turn.2.nNewTokens)
    (same : s.pool.cellOf turn.1.kv pos = s.pool.cellOf other.1.kv place) :
    turn.1.id = other.1.id ∧ pos = place := by
  have changes := store_changes valid.unique (scheduled.running turn member) s.pool turn.1 rfl
  have layout := changes.layout valid.layout
  have size := layout.size
  have seat := layout.valid turn.1.seat mem_cons_self
  obtain ⟨block, found, cell, _, once⟩ := layout.ownCell (Nat.le_trans seat.cached low)
    (Nat.lt_of_lt_of_le high (scheduled.ready turn member).room)
  obtain ⟨count, absent⟩ := layout.own_alone (mem_of_getElem? found) once
  change s.pool.cellOf turn.1.kv pos = _ at cell
  rw [cell] at same
  obtain ⟨there, held, slot⟩ := Option.map_eq_some_iff.mp same.symm
  obtain ⟨sameBlock, sameOffset⟩ := slot_inj (Nat.mod_lt place size) (Nat.mod_lt pos size) slot
  rw [sameBlock] at held
  by_cases handle : turn.1.id = other.1.id
  · have equal : turn.1 = other.1 := by
      have first := valid.find (scheduled.running turn member)
      rw [handle, valid.find (scheduled.running other inside)] at first
      exact (Option.some.inj first).symm
    refine ⟨handle, ?_⟩
    have index := index_unique found (show turn.1.kv.blockIds[_]? = _ by rw [equal]; exact held)
      (Nat.le_of_eq count)
    rw [← Nat.div_add_mod pos s.pool.blockSize, index, ← sameOffset, Nat.div_add_mod]
  · refine (absent (mem_flatMap.mpr ⟨other.1.seat, ?_, mem_of_getElem? held⟩)).elim
    refine mem_map.mpr ⟨other.1, mem_append_left _ ?_, rfl⟩
    exact Keyed.mem_remove.mpr ⟨scheduled.running other inside, fun same => handle same.symm⟩

theorem Valid.stepWrites_own {write : Option Nat}
    (member : write ∈ s.stepWrites (turns.map Prod.snd)) :
    ∃ slot, write = some slot ∧ s.pool.OwnCell slot := by
  obtain ⟨entry, inside, written⟩ := mem_flatMap.mp member
  obtain ⟨turn, here, rfl⟩ := mem_map.mp inside
  rw [valid.entryWrites scheduled here] at written
  obtain ⟨pos, range, rfl⟩ := mem_map.mp written
  rw [mem_range'_1] at range
  exact valid.writes_own scheduled here range.1 range.2

theorem Valid.stepWrites_nodup : (s.stepWrites (turns.map Prod.snd)).Nodup := by
  rw [stepWrites, nodup_flatMap]
  constructor
  · intro entry inside
    obtain ⟨turn, here, rfl⟩ := mem_map.mp inside
    rw [valid.entryWrites scheduled here]
    refine List.Nodup.map_on ?_ nodup_range'
    intro pos range place _ same
    rw [mem_range'_1] at range
    exact (valid.writes_apart scheduled here here range.1 range.2 same).2
  · rw [pairwise_map]
    refine (pairwise_map.mp scheduled.unique).imp_of_mem ?_
    intro turn other member inside different
    change List.Disjoint _ _
    rw [valid.entryWrites scheduled member, valid.entryWrites scheduled inside]
    intro slot left right
    obtain ⟨pos, range, rfl⟩ := mem_map.mp left
    obtain ⟨place, _, same⟩ := mem_map.mp right
    rw [mem_range'_1] at range
    have handle := (valid.writes_apart scheduled member inside range.1 range.2 same.symm).1
    rw [scheduled.handle turn member, scheduled.handle other inside] at handle
    exact different handle

/-- The slots of the batch are the cells the step writes. -/
theorem Valid.build_slots :
    (Batch.build s (turns.map Prod.snd)).tokens.map BatchToken.slot =
      s.stepWrites (turns.map Prod.snd) := by
  obtain ⟨more, built⟩ := Batch.build_turns valid.unique scheduled
  rw [built]
  dsimp only
  clear built
  induction turns using List.reverseRecOn with
  | nil => rfl
  | append_singleton turns last ih =>
    have inside : last ∈ turns ++ [last] := mem_append_right _ mem_cons_self
    rw [Batch.ofTurns_concat, Batch.push_tokens, map_append, ih scheduled.front,
      map_append, stepWrites, stepWrites, flatMap_append, map_singleton,
      flatMap_singleton, valid.entryWrites scheduled inside, Batch.freshTokens, map_map]
    rfl

end

/-- The cells the next step writes are defined and pairwise distinct, and lie in blocks with
one reference and no hash. -/
def WritesOwn (s : Scheduler M) : Prop :=
  (s.schedule.2.stepWrites s.schedule.1.scheduled).Nodup ∧
    ∀ write ∈ s.schedule.2.stepWrites s.schedule.1.scheduled,
      ∃ slot, write = some slot ∧ s.schedule.2.pool.OwnCell slot

theorem Valid.schedule_writesOwn (valid : s.Valid cells known) : s.WritesOwn := by
  obtain ⟨plan, shape, planned⟩ := valid.schedule
  obtain ⟨turns, order, ready⟩ := Batch.turns_exist plan.sched plan.out.scheduled
    planned.valid.unique (by rw [planned.valid.blockSize]; exact planned.valid.ready)
  rw [WritesOwn, shape, ← order]
  exact ⟨planned.valid.sched.stepWrites_nodup ready,
    fun write member => planned.valid.sched.stepWrites_own ready member⟩

end Scheduler

/-- A pass over batch tokens that sets at most the slot of each leaves all other cells alone. -/
theorem foldl_elsewhere {turn : Cells M → BatchToken → Cells M}
    (here : ∀ cells token, turn cells token = cells ∨
      ∃ slot value, token.slot = some slot ∧ turn cells token = cells.set slot value)
    {slot : Nat} (tokens : List BatchToken) (apart : some slot ∉ tokens.map BatchToken.slot)
    (cells : Cells M) : (tokens.foldl turn cells).getD slot none = cells.getD slot none := by
  induction tokens generalizing cells with
  | nil => rfl
  | cons token tokens ih =>
    rw [map_cons, mem_cons, not_or] at apart
    rw [foldl_cons, ih apart.2]
    rcases here cells token with same | ⟨other, value, target, set⟩
    · rw [same]
    · rw [set, getD_eq_getElem?_getD, getElem?_set_ne, ← getD_eq_getElem?_getD]
      intro equal
      exact apart.1 (by rw [target, equal])

namespace Engine

theorem written_elsewhere (e : Engine M) (scheduled : List ScheduledRequest) (input : StepInput)
    {slot : Nat}
    (apart : some slot ∉ (Batch.build e.sched scheduled).tokens.map BatchToken.slot) :
    (e.written scheduled input).getD slot none = e.cells.getD slot none := by
  unfold written
  dsimp only
  split
  · refine foldl_elsewhere ?_ _ ?_ _
    · intro cells token
      split
      · exact .inl rfl
      · rename_i target
        exact .inr ⟨_, _, target, rfl⟩
    · intro member
      rw [map_take] at member
      exact apart (mem_of_mem_take member)
  · refine foldl_elsewhere ?_ _ apart _
    intro cells token
    unfold Batch.writeToken
    dsimp only
    split
    · exact .inl rfl
    · rename_i target
      exact .inr ⟨_, _, target, rfl⟩

/-- A step keeps the cells of every block that is registered when it starts to compute. -/
theorem Invariant.step_keeps {service : Service M} {known : Registration → Prop} {e : Engine M}
    (inv : e.Invariant service known) (sound : service.Sound known) (knows : e.Knows known)
    (input : StepInput) {block offset : Nat}
    (registered : (e.ingest.sched.schedule.2.pool.block block).hash ≠ hashNone)
    (inside : offset < service.cfg.blockSize) :
    (Engine.handle (e.step input)).cells.getD (block * service.cfg.blockSize + offset) none =
      e.cells.getD (block * service.cfg.blockSize + offset) none := by
  obtain ⟨scheduled, _, turns, order, ready⟩ := inv.ingest.1.schedule sound (inv.ingest_knows knows)
  have start : e.ingest.cells = e.cells := congrArg Ambient.cells e.ingest_ambient
  have same : (Engine.handle (e.step input)).cells = (e.ingest.stepBody input).1.cells :=
    congrArg Ambient.cells (handle_ambient (e.step input))
  rw [same, ← start]
  rcases e.ingest.stepBody_ambient input with kept | written
  · rw [show (e.ingest.stepBody input).1.cells = e.ingest.cells from congrArg Ambient.cells kept]
  rw [show (e.ingest.stepBody input).1.cells = _ from congrArg Ambient.cells written]
  apply written_elsewhere
  intro member
  dsimp only at member
  rw [← order, scheduled.sched.build_slots ready] at member
  obtain ⟨slot, here, _, _, blank⟩ := scheduled.sched.stepWrites_own ready member
  have size : e.ingest.sched.schedule.2.pool.blockSize = service.cfg.blockSize :=
    scheduled.blockSize
  rw [← Option.some.inj here, size, Nat.mul_comm, Nat.mul_add_div (by omega),
    Nat.div_eq_of_lt inside, Nat.add_zero] at blank
  exact registered blank

/-- No step writes into shared or cached KV, whatever calls and steps came before. -/
theorem run_writesOwn (M : Model) (cfg : EngineConfig) (actions : List Action) :
    (run M cfg actions).sched.WritesOwn ∧ (run M cfg actions).ingest.sched.WritesOwn := by
  have inv := run_invariant M cfg actions
  exact ⟨inv.sched.schedule_writesOwn, inv.ingest.1.sched.schedule_writesOwn⟩

/-- A registered block holds, cell by cell, what was fed for the real tokens of the request
that registered it. -/
def HoldsReal (M : Model) (cfg : EngineConfig) (actions : List Action) (block : Nat) : Prop :=
  ∃ entry count, ((run M cfg actions).sched.pool.block block).owner = some entry ∧
    chains M cfg actions entry ∧ entry.chain.length = (count + 1) * cfg.blockSize ∧
    ((run M cfg actions).sched.pool.block block).tokens =
      blockTokens cfg.blockSize entry.chain count ∧
    ∀ offset < cfg.blockSize, ∃ cell,
      (run M cfg actions).cells.getD (block * cfg.blockSize + offset) none = some cell ∧
      cell.fed = entry.chain.take (count * cfg.blockSize + offset + 1) ∧
      (CollisionFree cfg.blockSize (chains M cfg actions) →
        (M.cacheOf cell.fed).getLast? = some (some cell.kv))

/-- Draft tokens never reach the prefix cache: committed blocks lie within the computed
tokens, registered blocks hold real tokens, and no step overwrites them. -/
theorem run_cache_real (M : Model) (cfg : EngineConfig) (actions : List Action) :
    (∀ r ∈ (run M cfg actions).sched.allRequests,
      r.kv.numCachedBlocks * cfg.blockSize ≤ r.numComputedTokens) ∧
    (∀ block, ((run M cfg actions).sched.pool.block block).hash ≠ hashNone →
      HoldsReal M cfg actions block) ∧
    ∀ input block offset,
      ((run M cfg actions).ingest.sched.schedule.2.pool.block block).hash ≠ hashNone →
      offset < cfg.blockSize →
      (handle ((run M cfg actions).step input)).cells.getD (block * cfg.blockSize + offset) none =
        (run M cfg actions).cells.getD (block * cfg.blockSize + offset) none := by
  have inv := run_invariant M cfg actions
  have size : (run M cfg actions).sched.pool.blockSize = cfg.blockSize := inv.blockSize
  have layout := inv.sched.layout
  refine ⟨?_, ?_, ?_⟩
  · intro r member
    have seat := layout.valid r.seat (mem_map.mpr ⟨r, member, rfl⟩)
    rw [← size]
    exact seat.cached
  · intro block registered
    obtain ⟨entry, count, owner, real, length, _, tokens⟩ := layout.indexed block registered
    rw [size] at length tokens
    refine ⟨entry, count, owner, real, length, tokens, ?_⟩
    intro offset inside
    have fed := layout.labels block entry count offset registered owner (by rw [size]; exact length)
      (by rw [size]; exact inside)
    rw [size] at fed
    obtain ⟨cell, stored, label⟩ := Option.map_eq_some_iff.mp fed
    exact ⟨cell, stored, label, fun free => (inv.exact free).sound _ cell stored⟩
  · intro input block offset registered inside
    exact inv.step_keeps runService_sound (run_knows M cfg actions) input registered inside

end Engine

end Iian
