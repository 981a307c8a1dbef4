import Iian.SamplerOrder
import Mathlib.Algebra.BigOperators.Ring.List
import Mathlib.Algebra.Order.BigOperators.Group.List
import Mathlib.Tactic.Linarith

/- Which tokens the sampler can return: one with a finite logit, if there is one and the draw
is not exactly 0. -/
namespace Iian

open List

variable {K : Type}

namespace Sampler

variable {row : List (WithBot K)}

theorem getD_map_bot (f : K → K) (row : List (WithBot K)) (index : Nat) :
    (row.map (fun x => x.map f)).getD index ⊥ = (row.getD index ⊥).map f := by
  rw [getD_eq_getElem?_getD, getD_eq_getElem?_getD, getElem?_map]
  cases row[index]? <;> rfl

theorem scaled_finite (finite : ∃ x ∈ row, x ≠ ⊥) (f : K → K) :
    ∃ x ∈ row.map (fun x => x.map f), x ≠ ⊥ := by
  obtain ⟨x, member, above⟩ := finite
  refine ⟨_, mem_map_of_mem member, ?_⟩
  intro none
  exact above (WithBot.map_eq_bot_iff.mp none)

variable [Field K] [LinearOrder K] {E : Exponential K} {params : SamplingParams} {topP cum : K}

theorem weight_pos {mx : K} {x : WithBot K} : 0 < E.weight mx x ↔ x ≠ ⊥ := by
  induction x using WithBot.recBotCoe with
  | bot => simp [Exponential.weight]
  | coe x => simpa [Exponential.weight] using E.pos (x - mx)

theorem weight_nonneg (mx : K) (x : WithBot K) : 0 ≤ E.weight mx x := by
  induction x using WithBot.recBotCoe with
  | bot => exact le_refl _
  | coe x => exact le_of_lt (E.pos _)

/-- Truncation by mass keeps some mass. -/
theorem massCount_spec (probs : List K) :
    topP ≤ cum + (probs.take (massCount topP cum probs)).sum ∨
      massCount topP cum probs = probs.length := by
  induction probs generalizing cum with
  | nil => exact .inr rfl
  | cons p probs ih =>
    rw [massCount]
    split
    · rename_i reached
      left
      simpa using reached
    · rw [take_succ_cons, sum_cons, ← add_assoc, length_cons]
      exact ih.imp_right (congrArg (· + 1))

variable {probs : List K} {R : RandomSource K} {rng : R.State}

/-- No shorter front of the candidates reaches the mass. -/
theorem massCount_le (short : cum < topP) {count : Nat}
    (reached : topP ≤ cum + (probs.take count).sum) : massCount topP cum probs ≤ count := by
  induction probs generalizing cum count with
  | nil => exact Nat.zero_le _
  | cons p probs ih =>
    cases count with
    | zero =>
      rw [take_zero, sum_nil, add_zero] at reached
      exact (not_lt_of_ge reached short).elim
    | succ count =>
      rw [massCount]
      by_cases ends : topP ≤ cum + p
      · rw [if_pos ends]
        omega
      · rw [if_neg ends]
        rw [take_succ_cons, sum_cons, ← add_assoc] at reached
        exact Nat.succ_le_succ (ih (lt_of_not_ge ends) reached)

theorem minPIds_lt (finite : ∃ x ∈ row, x ≠ ⊥) {id : Nat} (member : id ∈ minPIds E params row) :
    id < row.length := by
  unfold minPIds at member
  split at member
  · dsimp only at member
    split at member
    · rw [mem_singleton.mp member]
      exact (Vec.argmax_spec finite).1
    · exact mem_range.mp (mem_of_mem_filter member)
  · exact mem_range.mp member

/-- `min_p` keeps the first maximum. -/
theorem argmax_mem_minPIds (finite : ∃ x ∈ row, x ≠ ⊥) :
    Vec.argmax row ∈ minPIds E params row := by
  obtain ⟨inside, largest⟩ := Vec.argmax_spec finite
  unfold minPIds
  split
  · dsimp only
    split
    · exact mem_cons_self
    rename_i some
    obtain ⟨id, member⟩ := exists_mem_of_ne_nil _ (mt List.isEmpty_iff.mpr some)
    obtain ⟨here, above⟩ := mem_filter.mp member
    rw [mem_filter, mem_range]
    refine ⟨inside, ?_⟩
    rw [decide_eq_true_eq] at above ⊢
    rw [largest]
    refine le_trans above (Vec.maxValue_ge row _ ?_)
    rw [getD_eq_getElem?_getD, getElem?_eq_getElem (mem_range.mp here)]
    exact getElem_mem _
  · exact mem_range.mpr inside

variable [IsStrictOrderedRing K]

/-- The draw stops at the first place whose cumulative probability reaches `r`. -/
theorem pick_first {r : K} (nonneg : 0 ≤ r) (below : r < probs.sum) :
    ∃ index < probs.length, pick r probs = some index ∧ r ≤ (probs.take (index + 1)).sum ∧
      ∀ earlier < index, (probs.take (earlier + 1)).sum < r := by
  induction probs generalizing r with
  | nil => exact (not_lt_of_ge nonneg below).elim
  | cons p probs ih =>
    rw [pick]
    by_cases ends : r - p ≤ 0
    · refine ⟨0, by simp, if_pos ends, by simpa using ends, ?_⟩
      intro earlier none
      omega
    · rw [if_neg ends]
      rw [sum_cons] at below
      obtain ⟨index, inside, picked, reached, before⟩ :=
        ih (le_of_lt (lt_of_not_ge ends)) (sub_lt_iff_lt_add'.mpr below)
      refine ⟨index + 1, by simpa using inside, by rw [picked]; rfl, ?_, ?_⟩
      · rw [take_succ_cons, sum_cons]
        exact sub_le_iff_le_add'.mp reached
      intro earlier less
      rw [take_succ_cons, sum_cons]
      cases earlier with
      | zero => simpa using ends
      | succ earlier => exact lt_sub_iff_add_lt'.mp (before earlier (by omega))

/-- A positive value below the sum is drawn at a positive entry. -/
theorem pick_spec {value : K} (positive : 0 < value) (below : value < probs.sum) :
    ∃ index p, pick value probs = some index ∧ probs[index]? = some p ∧ 0 < p := by
  obtain ⟨index, inside, picked, reached, before⟩ := pick_first (le_of_lt positive) below
  refine ⟨index, probs[index], picked, getElem?_eq_getElem inside, ?_⟩
  have front : (probs.take index).sum < value := by
    cases index with
    | zero => simpa using positive
    | succ index => exact before index (Nat.lt_succ_self index)
  rw [take_add_one, getElem?_eq_getElem inside, Option.toList_some, sum_append,
    sum_singleton] at reached
  linarith

variable [FloorRing K] {ids : List Nat}

theorem mem_topKIds {id : Nat} (member : id ∈ topKIds params row ids) : id ∈ ids := by
  unfold topKIds at member
  rw [sortDesc_eq_sort] at member
  split at member
  · exact mem_sort.mp (mem_of_mem_take member)
  · split at member
    · exact mem_sort.mp member
    · exact member

/-- A candidate with the largest logit survives `top_k`. -/
theorem topKIds_best {best : Nat} (member : best ∈ ids)
    (largest : ∀ id ∈ ids, row.getD id ⊥ ≤ row.getD best ⊥) :
    ∃ id ∈ topKIds params row ids, row.getD id ⊥ = row.getD best ⊥ := by
  unfold topKIds
  rw [sortDesc_eq_sort]
  split
  · rename_i truncates
    have sorted := sort_pairwise row ids
    have inside : best ∈ sort row ids := mem_sort.mpr member
    cases order : sort row ids with
    | nil =>
      rw [order] at inside
      cases inside
    | cons first rest =>
      rw [order] at sorted inside
      obtain ⟨count, positive⟩ : ∃ count, params.topK.toNat = count + 1 :=
        ⟨params.topK.toNat - 1, by omega⟩
      refine ⟨first, ?_, ?_⟩
      · rw [positive, take_succ_cons]
        exact mem_cons_self
      apply le_antisymm
      · apply largest first
        have listed : first ∈ sort row ids := by rw [order]; exact mem_cons_self
        exact mem_sort.mp listed
      · rcases mem_cons.mp inside with same | later
        · rw [same]
        · exact descends_le (rel_of_pairwise_cons sorted later)
  · split
    · exact ⟨best, mem_sort.mpr member, rfl⟩
    · exact ⟨best, member, rfl⟩

/-- The candidates have nonnegative weights, one of which is positive. -/
theorem weights_pos (finite : ∃ x ∈ row, x ≠ ⊥) (mx : K) :
    0 < ((topKIds params row (minPIds E params row)).map
      (fun id => E.weight mx (row.getD id ⊥))).sum := by
  obtain ⟨inside, largest⟩ := Vec.argmax_spec finite
  have some : row.getD (Vec.argmax row) ⊥ ≠ ⊥ := by
    rw [largest]
    exact Vec.maxValue_ne_bot finite
  have bound : ∀ id ∈ minPIds E params row, row.getD id ⊥ ≤ row.getD (Vec.argmax row) ⊥ := by
    intro id member
    rw [largest, getD_eq_getElem?_getD, getElem?_eq_getElem (minPIds_lt finite member)]
    exact Vec.maxValue_ge row _ (getElem_mem _)
  obtain ⟨best, member, same⟩ : ∃ id ∈ topKIds params row (minPIds E params row),
      row.getD id ⊥ = row.getD (Vec.argmax row) ⊥ :=
    topKIds_best (argmax_mem_minPIds finite) bound
  have positive : 0 < E.weight mx (row.getD best ⊥) := weight_pos.mpr (by rw [same]; exact some)
  refine lt_of_lt_of_le positive (single_le_sum ?_ _ (mem_map_of_mem member))
  intro weight listed
  obtain ⟨id, _, rfl⟩ := mem_map.mp listed
  exact weight_nonneg mx _

variable (params) in
/-- The candidates with a positive probability are finite. -/
theorem candidates_finite (finite : ∃ x ∈ row, x ≠ ⊥) (mx : K) (index : Nat) (p : K)
    (found : (candidates E params row mx).2[index]? = some p) (positive : 0 < p) :
    ∃ id, (candidates E params row mx).1[index]? = some id ∧ id < row.length ∧
      row.getD id ⊥ ≠ ⊥ := by
  have members : ∀ id ∈ topKIds params row (minPIds E params row), id < row.length :=
    fun id member => minPIds_lt finite (mem_topKIds member)
  unfold candidates at found ⊢
  dsimp only at found ⊢
  generalize topKIds params row (minPIds E params row) = ids at members found ⊢
  generalize (if params.topP < 1 ∧ 1 < ids.length then _ else ids.length) = count at found ⊢
  rw [getElem?_take] at found ⊢
  split at found
  · rename_i kept
    rw [if_pos kept]
    rw [map_map, getElem?_map, Option.map_eq_some_iff] at found
    obtain ⟨id, listed, rfl⟩ := found
    refine ⟨id, listed, members id (mem_of_getElem? listed), ?_⟩
    rw [Function.comp_apply] at positive
    have weighs : 0 < E.weight mx (row.getD id ⊥) ↔ row.getD id ⊥ ≠ ⊥ := weight_pos
    rw [← weighs]
    apply lt_of_le_of_ne (weight_nonneg mx _)
    intro none
    rw [← none, zero_div] at positive
    exact lt_irrefl _ positive
  · cases found

/-- Some candidate has a positive probability, and those that have one are finite. -/
theorem candidates_spec (mass : 0 < params.topP) (finite : ∃ x ∈ row, x ≠ ⊥) (mx : K) :
    0 < (candidates E params row mx).2.sum ∧
    ∀ (index : Nat) (p : K), (candidates E params row mx).2[index]? = some p → 0 < p →
      ∃ id, (candidates E params row mx).1[index]? = some id ∧ id < row.length ∧
        row.getD id ⊥ ≠ ⊥ := by
  refine ⟨?_, candidates_finite params finite mx⟩
  have total : 0 < ((topKIds params row (minPIds E params row)).map
      (fun id => E.weight mx (row.getD id ⊥))).sum := weights_pos finite mx
  unfold candidates
  dsimp only
  generalize topKIds params row (minPIds E params row) = ids at total ⊢
  generalize same : ids.map (fun id => E.weight mx (row.getD id ⊥)) = weights at total ⊢
  have whole : 0 < (weights.map (· / weights.sum)).sum := by
    simp only [div_eq_mul_inv, sum_map_mul_right, map_id']
    exact mul_pos total (inv_pos.mpr total)
  split
  · have share : (0 : K) < params.topP := Rat.cast_pos.mpr mass
    rcases massCount_spec (weights.map (· / weights.sum)) with reached | all
    · exact lt_of_lt_of_le share (le_of_le_of_eq reached (zero_add _))
    · rw [all, take_length]
      exact whole
  · rw [take_of_length_le (by rw [length_map, ← same, length_map])]
    exact whole

/-- Whatever is drawn is an entry of the row. -/
theorem draw_lt (finite : ∃ x ∈ row, x ≠ ⊥) (value : K) : draw E params row value < row.length := by
  have positive : 0 < row.length := by
    obtain ⟨x, member, _⟩ := finite
    exact length_pos_of_mem member
  have member : ∀ ids : List Nat, (∀ id ∈ ids, id ∈ topKIds params row (minPIds E params row)) →
      ∀ index, ids.getD index 0 < row.length := by
    intro ids inside index
    rw [getD_eq_getElem?_getD]
    cases found : ids[index]? with
    | none => exact positive
    | some id => exact minPIds_lt finite (mem_topKIds (inside id (mem_of_getElem? found)))
  unfold draw
  split
  · rename_i none
    exact (Vec.maxValue_ne_bot finite none).elim
  · apply member
    intro id listed
    exact mem_of_mem_take listed

theorem choose_lt (finite : ∃ x ∈ row, x ≠ ⊥) : (choose E R params rng row).1 < row.length := by
  unfold choose
  split
  · exact (Vec.argmax_spec finite).1
  · rw [← row.length_map]
    exact draw_lt (scaled_finite finite _) (R.uniform rng).1

end Sampler

/-- An operation that changes each entry by itself and makes no forbidden token possible. -/
def Entrywise (op : List (WithBot K) → List (WithBot K)) : Prop :=
  ∃ f : Nat → Nat → WithBot K → WithBot K, (∀ count index, f count index ⊥ = ⊥) ∧
    ∀ row, op row = row.mapIdx (f row.length)

namespace Entrywise

variable {op other : List (WithBot K) → List (WithBot K)}

theorem mapIdx {f : Nat → WithBot K → WithBot K} (bot : ∀ index, f index ⊥ = ⊥) :
    Entrywise (fun row => row.mapIdx f) :=
  ⟨fun _ => f, fun _ => bot, fun _ => rfl⟩

theorem refl : Entrywise (fun row : List (WithBot K) => row) :=
  ⟨fun _ _ x => x, fun _ _ => rfl, fun row => by rw [mapIdx_eq_zipIdx_map]; simp⟩

theorem comp (second : Entrywise other) (first : Entrywise op) :
    Entrywise (fun row => other (op row)) := by
  obtain ⟨f, bot, shape⟩ := first
  obtain ⟨g, bottom, shaped⟩ := second
  refine ⟨fun count index x => g count index (f count index x), ?_, ?_⟩
  · intro count index
    dsimp only
    rw [bot, bottom]
  · intro row
    dsimp only
    rw [shaped, shape, length_mapIdx, mapIdx_mapIdx]
    rfl

theorem modify (place : Nat) {g : WithBot K → WithBot K} (bot : g ⊥ = ⊥) :
    Entrywise (fun row => row.modify place g) := by
  refine ⟨fun _ index x => if place = index then g x else x, ?_, ?_⟩
  · intro _ index
    dsimp only
    split
    · exact bot
    · rfl
  · intro row
    apply ext_getElem?
    intro index
    rw [getElem?_modify, getElem?_mapIdx]
    cases row[index]? <;> rfl

theorem set (place : Nat) : Entrywise (fun row : List (WithBot K) => row.set place ⊥) := by
  refine ⟨fun _ index x => if place = index then ⊥ else x, ?_, ?_⟩
  · intro _ index
    exact ite_self _
  intro row
  apply ext_getElem?
  intro index
  rw [getElem?_set, getElem?_mapIdx]
  by_cases inside : index < row.length <;> by_cases here : place = index <;> simp [here, inside]

/-- A test of the length alone. -/
theorem ite (test : Nat → Prop) [DecidablePred test] (first : Entrywise op)
    (second : Entrywise other) :
    Entrywise (fun row => if test row.length then op row else other row) := by
  obtain ⟨f, bot, shape⟩ := first
  obtain ⟨g, bottom, shaped⟩ := second
  refine ⟨fun count => if test count then f count else g count, ?_, ?_⟩
  · intro count index
    dsimp only
    split
    · exact bot count index
    · exact bottom count index
  · intro row
    dsimp only
    split
    · exact shape row
    · exact shaped row

theorem foldl {α : Type} {turn : α → List (WithBot K) → List (WithBot K)}
    (each : ∀ item, Entrywise (turn item)) (items : List α) :
    Entrywise (fun row => items.foldl (fun row item => turn item row) row) := by
  induction items with
  | nil => exact refl
  | cons item items ih => exact ih.comp (each item)

theorem length (entrywise : Entrywise op) (row : List (WithBot K)) : (op row).length = row.length := by
  obtain ⟨f, _, shape⟩ := entrywise
  rw [shape, length_mapIdx]

/-- An entry depends on the length of the row and on the entry that was there. -/
theorem getD (entrywise : Entrywise op) : ∃ f : Nat → Nat → WithBot K → WithBot K,
    (∀ count index, f count index ⊥ = ⊥) ∧
      ∀ row index, (op row).getD index ⊥ = f row.length index (row.getD index ⊥) := by
  obtain ⟨f, bot, shape⟩ := entrywise
  refine ⟨f, bot, ?_⟩
  intro row index
  rw [shape, getD_eq_getElem?_getD, getD_eq_getElem?_getD, getElem?_mapIdx]
  cases row[index]? with
  | none => exact (bot _ _).symm
  | some x => rfl

end Entrywise

namespace SamplingParams

variable [Field K] [LinearOrder K] (params : SamplingParams) (prompt output : List Token)

/-- The logits processors work entry by entry. -/
theorem process_entrywise :
    Entrywise (fun row : List (WithBot K) => params.process prompt output row) := by
  have allowed : Entrywise (fun row : List (WithBot K) => params.keepAllowed row) := by
    unfold keepAllowed
    split
    · exact .refl
    · apply Entrywise.mapIdx
      intro index
      split <;> rfl
  have biased : Entrywise (fun row : List (WithBot K) => params.addBias row) := by
    apply Entrywise.foldl
    intro entry
    exact Entrywise.modify _ (WithBot.bot_add _)
  have words : Entrywise (fun row : List (WithBot K) =>
      params.badWords.foldl (maskBadWord output) row) := by
    apply @Entrywise.foldl K _ (fun word row => maskBadWord output row word)
    intro word
    unfold maskBadWord
    dsimp only
    split
    · exact .refl
    · exact Entrywise.ite (fun count => _ ∧ inVocab count (word.getLastD 0) = true) (.set _) .refl
  have penalties : Entrywise (fun row : List (WithBot K) =>
      params.addPenalties prompt output row) := by
    unfold addPenalties
    dsimp only
    split
    · apply Entrywise.mapIdx
      intro index
      split
      · unfold penalize
        dsimp only
        split <;> split <;> (try split) <;> rfl
      · rfl
    · exact .refl
  exact penalties.comp (words.comp (biased.comp allowed))

end SamplingParams

end Iian
