import Iian.LayoutSteps

/- Writing cells. A step writes only blocks that one request owns alone, and what the
network reads back for a request is the cache of the tokens it was fed. -/
namespace Iian

open List
open BlockPool (entry_hash entry_owner)

variable {M : Model}

theorem slot_inj {size block other offset place : Nat} (inside : offset < size)
    (within : place < size) (same : block * size + offset = other * size + place) :
    block = other ∧ offset = place := by
  have positive : 0 < size := by omega
  have quotient := congrArg (· / size) same
  simp only [Nat.mul_comm _ size, Nat.mul_add_div positive, Nat.div_eq_of_lt inside,
    Nat.div_eq_of_lt within, Nat.add_zero] at quotient
  subst quotient
  exact ⟨rfl, by omega⟩

variable {cells : Cells M} {slot pos limit : Nat} {seq : SeqInfo}

theorem label_set_same (inside : slot < cells.length) (value : Option (Cell M)) :
    label (cells.set slot value) slot = value.map Cell.fed := by
  simp [label, getD_eq_getElem?_getD, inside]

theorem label_set_other {other : Nat} (different : slot ≠ other) (value : Option (Cell M)) :
    label (cells.set slot value) other = label cells other := by
  simp [label, getD_eq_getElem?_getD, getElem?_set_ne different]

theorem Exact.erase {pool : BlockPool} {seats : List Seat} (exact : Exact pool cells seats)
    (slot : Nat) : Exact pool (cells.set slot none) seats := by
  refine ⟨?_, exact.shared⟩
  intro place cell stored
  by_cases same : slot = place
  · subst same
    rw [getD_eq_getElem?_getD, getElem?_set] at stored
    simp only [↓reduceIte] at stored
    split at stored <;> simp at stored
  · rw [getD_eq_getElem?_getD, getElem?_set_ne same, ← getD_eq_getElem?_getD] at stored
    exact exact.sound place cell stored

namespace Layout

variable {pool : BlockPool} {cells : Cells M} {seat : Seat} {rest : List Seat}
  {known : Registration → Prop}

section

variable (layout : Layout pool cells (seat :: rest) known)
include layout

/-- A position behind the committed blocks lies in a block of the request alone. -/
theorem ownCell (low : seat.kv.numCachedBlocks * pool.blockSize ≤ pos)
    (high : pos < seat.kv.blockIds.length * pool.blockSize) :
    ∃ block, seat.kv.blockIds[pos / pool.blockSize]? = some block ∧
      pool.cellOf seat.kv pos = some (block * pool.blockSize + pos % pool.blockSize) ∧
      (pool.block block).hash = hashNone ∧ pool.refCount block = 1 := by
  have size := layout.size
  have inside : pos / pool.blockSize < seat.kv.blockIds.length :=
    (Nat.div_lt_iff_lt_mul size).mpr high
  have committed : seat.kv.numCachedBlocks ≤ pos / pool.blockSize :=
    (Nat.le_div_iff_mul_le size).mpr low
  have found := getElem?_eq_getElem inside
  have own := (layout.valid seat mem_cons_self).own _ _ committed found
  refine ⟨_, found, ?_, own⟩
  rw [BlockPool.cellOf, found, Option.map_some]

/-- Overwriting a cell behind the computed positions disturbs nobody. -/
theorem setCell (low : seat.computed ≤ pos) (high : pos < seat.kv.blockIds.length * pool.blockSize)
    (value : Option (Cell M)) :
    ∃ slot, pool.cellOf seat.kv pos = some slot ∧ slot < cells.length ∧
      Layout pool (cells.set slot value) (seat :: rest) known := by
  have size := layout.size
  have valid := layout.valid seat mem_cons_self
  obtain ⟨block, found, cell, hash, once⟩ := layout.ownCell (Nat.le_trans valid.cached low) high
  have offset := Nat.mod_lt pos size
  have bound : block < pool.numBlocks := pool.lt_numBlocks_of_refCount (by omega)
  have inside : block * pool.blockSize + pos % pool.blockSize < cells.length := by
    rw [layout.sized]
    have product := Nat.mul_le_mul_right pool.blockSize bound
    rw [Nat.succ_mul] at product
    omega
  refine ⟨_, cell, inside, ?_⟩
  -- another slot, or the same slot as a later position of the same request
  have elsewhere : ∀ other place, other ≠ block → place < pool.blockSize →
      label (cells.set (block * pool.blockSize + pos % pool.blockSize) value)
        (other * pool.blockSize + place) = label cells (other * pool.blockSize + place) := by
    intro other place different within
    apply label_set_other
    intro same
    exact different (slot_inj offset within same).1.symm
  refine ⟨size, ?_, layout.linked, ?_, layout.indexed, ?_⟩
  · rw [length_set]
    exact layout.sized
  · intro other member
    rcases mem_cons.mp member with same | inRest
    · rw [same]
      refine { valid with labels := ?_ }
      intro index own place above here within below
      rw [label_set_other]
      · exact valid.labels index own place above here within below
      intro same
      obtain ⟨sameBlock, samePlace⟩ := slot_inj offset within same
      subst sameBlock
      have alone := (layout.own_alone (mem_of_getElem? found) once).1
      have sameIndex := index_unique found here (by omega)
      have split := Nat.div_add_mod pos pool.blockSize
      rw [sameIndex, Nat.mul_comm] at split
      omega
    · apply (layout.valid other member).frame (BlockPool.Keeps.refl pool _)
      intro own here _ _ place within
      apply elsewhere own place _ within
      intro same
      subst same
      exact (layout.own_alone (mem_of_getElem? found) once).2
        (mem_flatMap.mpr ⟨other, inRest, here⟩)
  · intro other entry count place present owner length within
    rw [elsewhere other place _ within]
    · exact layout.labels other entry count place present owner length within
    · intro same
      exact present (by rw [same]; exact hash)

/-- A position counts as computed once its cell holds the right tokens. -/
theorem advance (cell : pool.cellOf seat.kv seat.computed = some slot)
    (written : label cells slot = some (seat.fed.take (seat.computed + 1)))
    (high : seat.computed < seat.kv.blockIds.length * pool.blockSize)
    (fits : seat.computed < seat.fed.length) :
    Layout pool cells ({ seat with computed := seat.computed + 1 } :: rest) known := by
  have valid := layout.valid seat mem_cons_self
  have next : Seat.Valid pool cells { seat with computed := seat.computed + 1 } := by
    refine { valid with
      cached := Nat.le_succ_of_le valid.cached
      room := high
      fits := fits
      labels := ?_ }
    intro index block offset above found inside below
    change index * pool.blockSize + offset < seat.computed + 1 at below
    rcases Nat.lt_succ_iff_lt_or_eq.mp below with earlier | last
    · exact valid.labels index block offset above found inside earlier
    have quotient : seat.computed / pool.blockSize = index := by
      rw [← last, Nat.mul_comm, Nat.mul_add_div layout.size, Nat.div_eq_of_lt inside,
        Nat.add_zero]
    have remainder : seat.computed % pool.blockSize = offset := by
      rw [← last, Nat.mul_comm, Nat.mul_add_mod, Nat.mod_eq_of_lt inside]
    rw [BlockPool.cellOf, quotient, found, Option.map_some, remainder] at cell
    cases cell
    rw [written, ← last]
    rfl
  exact layout.replace (BlockPool.Keeps.refl pool _) rfl layout.linked_cons next (fun _ _ => rfl)

/-- The cell of a computed position was last written for the request's own tokens. -/
theorem label_cell (exact : Exact pool cells (seat :: rest)) (computed : pos < seat.computed) :
    ∃ slot, pool.cellOf seat.kv pos = some slot ∧
      label cells slot = some (seat.fed.take (pos + 1)) := by
  have size := layout.size
  have valid := layout.valid seat mem_cons_self
  have inside : pos / pool.blockSize < seat.kv.blockIds.length :=
    (Nat.div_lt_iff_lt_mul size).mpr (Nat.lt_of_lt_of_le computed valid.room)
  have found := getElem?_eq_getElem inside
  have split := Nat.div_add_mod pos pool.blockSize
  have offset := Nat.mod_lt pos size
  rw [Nat.mul_comm] at split
  refine ⟨_, by rw [BlockPool.cellOf, found, Option.map_some], ?_⟩
  rcases Nat.lt_or_ge (pos / pool.blockSize) seat.kv.numCachedBlocks with shared | own
  · have real : (pos / pool.blockSize + 1) * pool.blockSize ≤ seat.tokens.length :=
      Nat.le_trans (Nat.mul_le_mul_right _ shared) valid.real
    have product : (pos / pool.blockSize + 1) * pool.blockSize =
        pos / pool.blockSize * pool.blockSize + pool.blockSize := Nat.succ_mul _ _
    rw [layout.labels _ _ (pos / pool.blockSize) _ (valid.registered _ _ shared found)
      (exact.shared seat mem_cons_self _ _ shared found)
      (by rw [length_take, Nat.min_eq_left real]) offset, split]
    change some ((seat.tokens.take _).take _) = _
    rw [take_take, Nat.min_eq_left (by omega), Seat.fed, take_append_of_le_length (by omega)]
  · rw [valid.labels _ _ _ own found offset (by omega), split]

/-- What the network reads for the first positions of a request is their cache. -/
theorem context (exact : Exact pool cells (seat :: rest)) {count : Nat}
    (table : seq.cells = (List.range limit).map (pool.cellOf seat.kv)) (within : count ≤ limit)
    (computed : count ≤ seat.computed) :
    Batch.context cells seq count = M.cacheOf (seat.fed.take count) := by
  have fits := (layout.valid seat mem_cons_self).fits
  apply ext_getElem?
  intro pos
  rcases Nat.lt_or_ge pos count with low | high
  · obtain ⟨slot, cell, written⟩ := layout.label_cell exact (Nat.lt_of_lt_of_le low computed)
    obtain ⟨content, stored, tokens⟩ := Option.map_eq_some_iff.mp written
    have sound := exact.sound slot content stored
    rw [tokens, M.cacheOf_take, getLast?_eq_getElem?, length_take,
      M.cacheOf_length, Nat.min_eq_left (by omega), Nat.add_sub_cancel,
      getElem?_take_of_lt (Nat.lt_succ_self pos)] at sound
    have place : (List.range limit)[pos]? = some pos := getElem?_range (by omega)
    rw [M.cacheOf_take, getElem?_take_of_lt low, sound, Batch.context, table,
      getElem?_map, getElem?_take_of_lt low, getElem?_map, place]
    simp only [Option.map_some, cell, Option.bind_some, stored]
  · rw [getElem?_eq_none, getElem?_eq_none]
    · rw [M.cacheOf_length, length_take]
      omega
    · rw [Batch.context, length_map, length_take]
      omega

end

end Layout

/-- A position of a sequence is fed: its K/V is stored in its cell. -/
def feedCell (pool : BlockPool) (kv : KVRequestState) (seq : SeqInfo) (cells : Cells M)
    (pos : Nat) : Cells M :=
  match pool.cellOf kv pos with
  | none => cells
  | some slot => cells.set slot (some {
      kv := M.keyValue (Batch.context cells seq pos) (seq.fed.getD pos 0)
      fed := seq.fed.take (pos + 1) })

namespace Layout

variable {pool : BlockPool} {cells : Cells M} {seat : Seat} {rest : List Seat}
  {known : Registration → Prop}

section

variable (layout : Layout pool cells (seat :: rest) known)
    (table : seq.cells = (List.range limit).map (pool.cellOf seat.kv)) (fed : seq.fed = seat.fed)
include layout table fed

theorem feedCell (within : seat.computed < limit)
    (high : seat.computed < seat.kv.blockIds.length * pool.blockSize)
    (fits : seat.computed < seat.fed.length) :
    Layout pool (feedCell pool seat.kv seq cells seat.computed)
        ({ seat with computed := seat.computed + 1 } :: rest) known ∧
      (Exact pool cells (seat :: rest) →
        Exact pool (feedCell pool seat.kv seq cells seat.computed)
          ({ seat with computed := seat.computed + 1 } :: rest)) := by
  obtain ⟨slot, cell, inside, written⟩ := layout.setCell (Nat.le_refl _) high (some {
    kv := M.keyValue (Batch.context cells seq seat.computed) (seq.fed.getD seat.computed 0)
    fed := seq.fed.take (seat.computed + 1) })
  rw [Iian.feedCell, cell]
  refine ⟨written.advance cell ?_ high fits, ?_⟩
  · rw [label_set_same inside, Option.map_some, fed]
  intro exact
  refine ⟨?_, ?_⟩
  · intro place content stored
    rw [getD_eq_getElem?_getD] at stored
    by_cases same : slot = place
    · subst same
      rw [getElem?_set_self inside, Option.getD_some] at stored
      cases stored
      have token : seat.fed.take (seat.computed + 1) =
          seat.fed.take seat.computed ++ [seat.fed.getD seat.computed 0] := by
        rw [take_add_one, getElem?_eq_getElem fits, getD_eq_getElem?_getD,
          getElem?_eq_getElem fits]
        rfl
      rw [fed, token, M.cacheOf_concat, getLast?_concat,
        layout.context exact table (Nat.le_of_lt within) (Nat.le_refl _)]
    · rw [getElem?_set_ne same, ← getD_eq_getElem?_getD] at stored
      exact exact.sound place content stored
  · intro other member
    rcases mem_cons.mp member with same | inRest
    · rw [same]
      exact exact.shared seat mem_cons_self
    · exact exact.shared other (mem_cons_of_mem _ inRest)

/-- Feeding a request its next `count` tokens. -/
theorem feed {count : Nat} (within : seat.computed + count ≤ limit)
    (high : seat.computed + count ≤ seat.kv.blockIds.length * pool.blockSize)
    (fits : seat.computed + count ≤ seat.fed.length) :
    Layout pool ((List.range' seat.computed count).foldl (Iian.feedCell pool seat.kv seq) cells)
        ({ seat with computed := seat.computed + count } :: rest) known ∧
      (Exact pool cells (seat :: rest) →
        Exact pool ((List.range' seat.computed count).foldl (Iian.feedCell pool seat.kv seq) cells)
          ({ seat with computed := seat.computed + count } :: rest)) := by
  induction count generalizing cells seat with
  | zero => exact ⟨layout, fun exact => exact⟩
  | succ count ih =>
    obtain ⟨first, firstExact⟩ := layout.feedCell table fed (by omega) (by omega) (by omega)
    have rest := ih first table fed (by dsimp only; omega) (by dsimp only; omega)
      (by change seat.computed + 1 + count ≤ seat.fed.length; omega)
    rw [range'_succ, foldl_cons]
    rw [show seat.computed + 1 + count = seat.computed + (count + 1) by omega] at rest
    exact ⟨rest.1, fun exact => rest.2 (firstExact exact)⟩

end

end Layout

end Iian
