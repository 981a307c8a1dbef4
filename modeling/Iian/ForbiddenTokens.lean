import Iian.Truncation

/- When a sample can be a token with the logit `-INFINITY`. Such tokens stay among the candidates
with probability 0, and the loop of the draw stops where the cumulative probability reaches the
drawn value: a draw of 0 stops at the first candidate, whatever its probability is. -/
namespace Iian

open List

variable {ids : List Nat}

namespace Sampler

section Order

variable {K : Type} [LinearOrder K] {row : List (WithBot K)}

theorem sort_ne_nil (row : List (WithBot K)) (some : ids ≠ []) : sort row ids ≠ [] := by
  intro none
  exact some (List.Perm.nil_eq (none ▸ sort_perm row ids)).symm

/-- The first candidate in the order has the largest logit. -/
theorem sort_head {first : Nat} (head : (sort row ids).head? = some first) {id : Nat}
    (member : id ∈ ids) : row.getD id ⊥ ≤ row.getD first ⊥ := by
  have sorted := sort_pairwise row ids
  have inside : id ∈ sort row ids := mem_sort.mpr member
  obtain ⟨rest, shape⟩ := head?_eq_some_iff.mp head
  rw [shape] at sorted inside
  rcases mem_cons.mp inside with same | later
  · rw [same]
  · exact descends_le (rel_of_pairwise_cons sorted later)

end Order

variable {K : Type} [Field K] [LinearOrder K]

/-- The first candidate has a finite logit: a truncation has put a maximum first or left only
finite tokens, or token 0 is finite itself. -/
def FirstFinite (params : SamplingParams) (row : List (WithBot K)) : Prop :=
  0 < params.minP ∨ (0 < params.topK ∧ params.topK < row.length) ∨ params.topP < 1 ∨
    row.getD 0 ⊥ ≠ ⊥

instance (params : SamplingParams) (row : List (WithBot K)) : Decidable (FirstFinite params row) :=
  inferInstanceAs (Decidable (_ ∨ _))

variable {E : Exponential K} {params : SamplingParams} {row : List (WithBot K)}

theorem minPIds_finite (finite : ∃ x ∈ row, x ≠ ⊥) (positive : 0 < params.minP) {id : Nat}
    (member : id ∈ minPIds E params row) : row.getD id ⊥ ≠ ⊥ := by
  have top := Vec.maxValue_ne_bot finite
  rw [minPIds, if_pos positive] at member
  dsimp only at member
  split at member
  · rw [mem_singleton.mp member, (Vec.argmax_spec finite).2]
    exact top
  have above := (mem_filter.mp member).2
  rw [decide_eq_true_eq] at above
  intro none
  rw [none, le_bot_iff, WithBot.add_eq_bot] at above
  exact above.elim top (WithBot.coe_ne_bot)

theorem minPIds_ne_nil (finite : ∃ x ∈ row, x ≠ ⊥) : minPIds E params row ≠ [] :=
  ne_nil_of_mem (argmax_mem_minPIds finite)

theorem range_head {count : Nat} (some : 0 < count) : (List.range count).head? = Option.some 0 := by
  rw [head?_range, if_neg (by omega)]

theorem keepCount_pos {mx : K} (some : 0 < ids.length) : 0 < keepCount E params row mx ids := by
  unfold keepCount
  split
  · exact massCount_pos (by rw [shares_length]; exact some)
  · exact some

variable [IsStrictOrderedRing K] [FloorRing K] (finite : ∃ x ∈ row, x ≠ ⊥)
include finite

variable (params) in
theorem topKIds_head :
    ∃ first, (topKIds params row (minPIds E params row)).head? = some first ∧
      (row.getD first ⊥ ≠ ⊥ ↔ FirstFinite params row) := by
  have filled : 0 < row.length := by
    obtain ⟨x, member, _⟩ := finite
    exact length_pos_of_mem member
  have some : minPIds E params row ≠ [] := minPIds_ne_nil finite
  have best : Vec.argmax row ∈ minPIds E params row := argmax_mem_minPIds finite
  have top : row.getD (Vec.argmax row) ⊥ ≠ ⊥ := by
    rw [(Vec.argmax_spec finite).2]
    exact Vec.maxValue_ne_bot finite
  -- a sorted list starts with a maximum
  have ordered : ∀ first, (sort row (minPIds E params row)).head? = Option.some first →
      row.getD first ⊥ ≠ ⊥ := by
    intro first head none
    have bound := sort_head head best
    rw [none, le_bot_iff] at bound
    exact top bound
  obtain ⟨first, rest, sorted⟩ := exists_cons_of_ne_nil (sort_ne_nil row some)
  have head : (sort row (minPIds E params row)).head? = Option.some first := by
    rw [sorted]
    rfl
  have whole : ¬ 0 < params.minP → minPIds E params row = List.range row.length :=
    fun off => if_neg off
  unfold topKIds
  rw [sortDesc_eq_sort]
  by_cases cut : 0 < params.topK ∧ params.topK < (minPIds E params row).length
  · rw [if_pos cut]
    refine ⟨first, ?_, iff_of_true (ordered first head) ?_⟩
    · rw [head?_take, if_neg (by omega)]
      exact head
    by_cases on : 0 < params.minP
    · exact .inl on
    · rw [whole on, length_range] at cut
      exact .inr (.inl cut)
  · rw [if_neg cut]
    by_cases several : params.topP < 1 ∧ 1 < (minPIds E params row).length
    · rw [if_pos several]
      exact ⟨first, head, iff_of_true (ordered first head) (.inr (.inr (.inl several.1)))⟩
    rw [if_neg several]
    by_cases on : 0 < params.minP
    · obtain ⟨id, rest, shape⟩ := exists_cons_of_ne_nil some
      refine ⟨id, by rw [shape]; rfl, iff_of_true (minPIds_finite (E := E) finite on ?_) (.inl on)⟩
      rw [shape]
      exact mem_cons_self
    · rw [whole on] at cut several ⊢
      rw [length_range] at cut several
      refine ⟨0, range_head filled, ?_⟩
      constructor
      · exact fun above => .inr (.inr (.inr above))
      rintro (positive | truncated | nucleus | above)
      · exact (on positive).elim
      · exact (cut truncated).elim
      · -- the only token of a row is the finite one
        have single : row.length = 1 := by
          by_contra many
          exact several ⟨nucleus, by omega⟩
        have zero : Vec.argmax row = 0 := by
          have inside := (Vec.argmax_spec finite).1
          omega
        rw [zero] at top
        exact top
      · exact above

variable (params) in
/-- The first candidate with its probability. -/
theorem candidates_head (mx : K) :
    ∃ first ids p probs, candidates E params row mx = (first :: ids, p :: probs) ∧
      (row.getD first ⊥ ≠ ⊥ ↔ FirstFinite params row) ∧ (0 < p ↔ row.getD first ⊥ ≠ ⊥) ∧
      ∀ q ∈ p :: probs, 0 ≤ q := by
  obtain ⟨first, head, same⟩ := topKIds_head (E := E) params finite
  obtain ⟨rest, shape⟩ := head?_eq_some_iff.mp head
  have total : 0 < ((first :: rest).map (fun id => E.weight mx (row.getD id ⊥))).sum := by
    rw [← shape]
    exact weights_pos finite mx
  obtain ⟨count, counted⟩ : ∃ count, keepCount E params row mx (first :: rest) = count + 1 :=
    Nat.exists_eq_succ_of_ne_zero (Nat.ne_of_gt (keepCount_pos (Nat.succ_pos _)))
  generalize whole : ((first :: rest).map (fun id => E.weight mx (row.getD id ⊥))).sum = sum at total
  refine ⟨first, rest.take count, E.weight mx (row.getD first ⊥) / sum,
    ((rest.map (fun id => E.weight mx (row.getD id ⊥))).map (· / sum)).take count, ?_, same, ?_, ?_⟩
  · rw [candidates_eq, shape, counted, ← whole]
    rfl
  · rw [div_pos_iff_of_pos_right total]
    exact weight_pos
  intro q member
  have listed : q ∈ ((first :: rest).map (fun id => E.weight mx (row.getD id ⊥))).map (· / sum) := by
    rw [← take_succ_cons] at member
    exact mem_of_mem_take member
  obtain ⟨weight, weighs, rfl⟩ := mem_map.mp listed
  obtain ⟨id, _, rfl⟩ := mem_map.mp weighs
  exact div_nonneg (weight_nonneg mx _) total.le

/-- A draw of 0 takes the first candidate. -/
theorem draw_zero : row.getD (draw E params row 0) ⊥ ≠ ⊥ ↔ FirstFinite params row := by
  unfold draw
  split
  · rename_i none
    exact (Vec.maxValue_ne_bot finite none).elim
  rename_i mx _
  obtain ⟨first, ids, p, probs, shape, same, _, nonneg⟩ :=
    candidates_head (E := E) params finite mx
  have stops : pick 0 (p :: probs) = some 0 := by
    rw [pick, if_pos]
    rw [zero_sub]
    exact neg_nonpos.mpr (nonneg p mem_cons_self)
  rw [← same, shape]
  dsimp only
  rw [zero_mul, stops]
  rfl

/-- The candidates have some probability, also if `top_p` asks for none. -/
theorem candidates_total (mx : K) : 0 < (candidates E params row mx).2.sum := by
  by_cases share : 0 < params.topP
  · exact (candidates_spec (E := E) share finite mx).1
  obtain ⟨first, ids, p, probs, shape, same, positive, nonneg⟩ :=
    candidates_head (E := E) params finite mx
  have ordered : FirstFinite params row :=
    .inr (.inr (.inl (lt_of_le_of_lt (not_lt.mp share) zero_lt_one)))
  rw [shape]
  exact lt_of_lt_of_le (positive.mpr (same.mpr ordered)) (single_le_sum nonneg p mem_cons_self)

variable (params) in
/-- Which draws give a finite token. -/
theorem draw_finite_iff {value : K} (nonneg : 0 ≤ value) (small : value < 1) :
    row.getD (draw E params row value) ⊥ ≠ ⊥ ↔ value ≠ 0 ∨ FirstFinite params row := by
  by_cases zero : value = 0
  · rw [zero, draw_zero finite]
    simp
  refine iff_of_true ?_ (.inl zero)
  unfold draw
  split
  · rename_i none
    exact (Vec.maxValue_ne_bot finite none).elim
  rename_i mx _
  have total : 0 < (candidates E params row mx).2.sum := candidates_total finite mx
  have each := candidates_finite (E := E) params finite mx
  generalize candidates E params row mx = found at total each ⊢
  obtain ⟨ids, probs⟩ := found
  dsimp only at total each ⊢
  obtain ⟨index, p, picked, here, some⟩ := pick_spec
    (mul_pos (lt_of_le_of_ne nonneg (Ne.symm zero)) total) (mul_lt_of_lt_one_left total small)
  obtain ⟨id, listed, _, above⟩ := each index p here some
  have taken : ids.getD index 0 = id := by
    rw [getD_eq_getElem?_getD, listed]
    rfl
  rw [picked, Option.getD_some, taken]
  exact above

/-- The token of a row that is chosen is finite unless 0 is drawn and the first candidate is
forbidden. -/
theorem choose_finite_iff {R : RandomSource K} {rng : R.State} :
    row.getD (choose E R params rng row).1 ⊥ ≠ ⊥ ↔
      params.isGreedy = true ∨ (R.uniform rng).1 ≠ 0 ∨ FirstFinite params row := by
  unfold choose
  split
  · rename_i greedy
    refine iff_of_true ?_ (.inl greedy)
    dsimp only
    rw [(Vec.argmax_spec finite).2]
    exact Vec.maxValue_ne_bot finite
  · rename_i random
    have drawn := draw_finite_iff (E := E) params
      (scaled_finite finite (· * (1 / (params.temperature : K)))) (R.nonneg rng) (R.lt_one rng)
    rw [or_iff_right random]
    -- scaling moves no token to or from `-INFINITY`
    simpa only [FirstFinite, getD_map_bot, ne_eq, WithBot.map_eq_bot_iff, length_map] using drawn

end Sampler

namespace SamplerState

open Sampler

variable {K : Type} [Field K] [LinearOrder K] [FloorRing K] {R : RandomSource K}

/-- A sample has a finite logit, in the row as it was given as well, unless 0 is drawn and the
first candidate is forbidden. -/
theorem sample_finite_iff [IsStrictOrderedRing K] (E : Exponential K) (s : SamplerState R)
    {row : List (WithBot K)} {prompt output : List Token}
    (finite : ∃ x ∈ s.params.process prompt output row, x ≠ ⊥) :
    (∃ token : Nat, (s.sample E row prompt output).1.token = token ∧ token < row.length ∧
        row.getD token ⊥ ≠ ⊥ ∧ (s.params.process prompt output row).getD token ⊥ ≠ ⊥) ↔
      s.params.isGreedy = true ∨ (R.uniform s.rng).1 ≠ 0 ∨
        FirstFinite s.params (s.params.process prompt output row) := by
  have entrywise := s.params.process_entrywise (K := K) prompt output
  rw [← choose_finite_iff (E := E) finite, sample_token]
  constructor
  · rintro ⟨token, same, _, _, above⟩
    rw [Int.ofNat_inj.mp same]
    exact above
  · intro above
    refine ⟨_, rfl, ?_, ?_, above⟩
    · rw [← entrywise.length row]
      exact choose_lt finite
    obtain ⟨f, bot, entries⟩ := entrywise.getD
    intro none
    rw [entries, none, bot] at above
    exact above rfl

end SamplerState

/-- A source that always returns the lower end of the interval. -/
def RandomSource.low : RandomSource ℚ where
  State := Unit
  seed := fun _ => ()
  uniform := fun _ => (0, ())
  nonneg := fun _ => le_refl 0
  lt_one := fun _ => zero_lt_one

namespace SamplerState

/-- A sampler with these parameters that always draws 0. -/
def lowest (params : SamplingParams) : SamplerState RandomSource.low where
  params := params
  rng := ()

/-- A row of two tokens, the first of which is forbidden. -/
def masked : List Score := [⊥, 0]

theorem sample_finite_nucleus :
    ∃ token : Nat, ((lowest { topP := 1 / 2 }).sample .rational masked [] []).1.token = token ∧
      token < 2 ∧ masked.getD token ⊥ ≠ ⊥ ∧
      (SamplingParams.process { topP := 1 / 2 } [] [] masked).getD token ⊥ ≠ ⊥ := by
  have finite : ∃ x ∈ (lowest { topP := 1 / 2 }).params.process [] [] masked, x ≠ ⊥ :=
    ⟨0, by decide +kernel, by decide⟩
  exact (sample_finite_iff .rational (lowest { topP := 1 / 2 }) finite).mpr (by decide +kernel)

/-- Token 0 is excluded by `allowed_token_ids`, 0 is drawn, and token 0 is returned. -/
theorem sample_forbidden :
    (∃ x ∈ (lowest { allowedTokenIds := [1] }).params.process [] [] [(0 : Score), 0], x ≠ ⊥) ∧
      ((lowest { allowedTokenIds := [1] }).sample .rational [0, 0] [] []).1.token = 0 ∧
      ((lowest { allowedTokenIds := [1] }).params.process [] [] [(0 : Score), 0]).getD 0 ⊥ = ⊥ := by
  decide +kernel

end SamplerState

end Iian
