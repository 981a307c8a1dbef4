import Iian.Network
import Mathlib.Algebra.Order.Group.Action
import Mathlib.Data.Rat.Cast.Order

/- What a sample is drawn from. The truncations are stated here in their own terms, over the
order of the tokens and the masses of lists of tokens; the sampler filters, sorts and cuts in
different ways for different parameters and numbers of candidates. -/
namespace Iian.Sampler

open List

section Order

variable {K : Type} [LinearOrder K]

/-- The order of the truncations: by descending logit, then by ascending id. -/
def Before (row : List (WithBot K)) (a b : Nat) : Prop :=
  row.getD b ⊥ < row.getD a ⊥ ∨ (row.getD a ⊥ = row.getD b ⊥ ∧ a < b)

/-- The first maximum of a row. -/
def Leads (row : List (WithBot K)) (id : Nat) : Prop :=
  id < row.length ∧ ∀ other < row.length, other ≠ id → Before row id other

/-- The tokens with a property, in order. -/
structure Ranking (row : List (WithBot K)) (good : Nat → Prop) (ranked : List Nat) : Prop where
  ordered : ranked.Pairwise (Before row)
  listed : ∀ id, id ∈ ranked ↔ id < row.length ∧ good id

/-- The first `top_k` tokens, or all of them. -/
def firstTopK (params : SamplingParams) (ranked : List Nat) : List Nat :=
  if params.topK ≤ 0 then ranked else ranked.take params.topK.toNat

variable {row : List (WithBot K)}

/-- The order that the sampler sorts by is the same one, apart from equal ids. -/
theorem before_iff {a b : Nat} : Before row a b ↔ descends row a b = true ∧ a ≠ b := by
  simp only [Before, descends, Bool.or_eq_true, Bool.and_eq_true, decide_eq_true_eq, beq_iff_eq]
  constructor
  · rintro (more | ⟨same, less⟩)
    · exact ⟨.inl more, fun equal => lt_irrefl _ (equal ▸ more)⟩
    · exact ⟨.inr ⟨same, by omega⟩, by omega⟩
  · rintro ⟨more | ⟨same, upTo⟩, apart⟩
    · exact .inl more
    · exact .inr ⟨same, by omega⟩

variable {good : Nat → Prop}

theorem Ranking.nodup {ranked : List Nat} (ranking : Ranking row good ranked) : ranked.Nodup :=
  ranking.ordered.imp (fun ahead => (before_iff.mp ahead).2)

/-- There is one ranking only. -/
theorem Ranking.unique {ranked other : List Nat} (ranking : Ranking row good ranked)
    (again : Ranking row good other) : ranked = other := by
  apply List.Perm.eq_of_pairwise _ ranking.ordered again.ordered
  · rw [perm_ext_iff_of_nodup ranking.nodup again.nodup]
    intro id
    rw [ranking.listed, again.listed]
  · intro a b _ _ first second
    exact descends_antisymm (before_iff.mp first).1 (before_iff.mp second).1

/-- Sorting candidates ranks them. -/
theorem sort_ranking {ids : List Nat} (distinct : ids.Nodup)
    (listed : ∀ id, id ∈ ids ↔ id < row.length ∧ good id) : Ranking row good (sort row ids) where
  ordered := by
    have apart : (sort row ids).Pairwise (· ≠ ·) := (sort_perm row ids).nodup_iff.mpr distinct
    exact List.Pairwise.imp₂ (fun _ _ ahead other => before_iff.mpr ⟨ahead, other⟩)
      (sort_pairwise row ids) apart
  listed := by
    intro id
    rw [mem_sort, listed]

theorem leads_unique {a b : Nat} (first : Leads row a) (second : Leads row b) : a = b := by
  by_contra apart
  have ahead := (before_iff.mp (first.2 b second.1 (Ne.symm apart))).1
  have behind := (before_iff.mp (second.2 a first.1 apart)).1
  exact apart (descends_antisymm ahead behind)

theorem argmax_leads (finite : ∃ x ∈ row, x ≠ ⊥) : Leads row (Vec.argmax row) := by
  obtain ⟨inside, largest⟩ := Vec.argmax_spec finite
  refine ⟨inside, ?_⟩
  intro other bound apart
  have entry : row.getD other ⊥ = row[other] := by
    rw [getD_eq_getElem?_getD, getElem?_eq_getElem bound, Option.getD_some]
  have upTo : row.getD other ⊥ ≤ row.getD (Vec.argmax row) ⊥ := by
    rw [largest, entry]
    exact Vec.maxValue_ge row _ (getElem_mem bound)
  rcases lt_or_eq_of_le upTo with less | same
  · exact .inl less
  right
  refine ⟨same.symm, ?_⟩
  by_contra early
  have before : other < Vec.argmax row := by omega
  have missed := not_of_lt_findIdx before
  rw [decide_eq_false_iff_not] at missed
  rw [largest, entry] at same
  exact missed same

/-- Candidates are in the order of the truncations if a truncation needs it, and in the order
of their ids otherwise. -/
structure Listing (params : SamplingParams) (ranked kept ids : List Nat) : Prop where
  perm : ids.Perm kept
  inOrder : (0 < params.topK ∧ params.topK < ranked.length) ∨ params.topP < 1 → ids = kept
  ascending : ¬ ((0 < params.topK ∧ params.topK < ranked.length) ∨ params.topP < 1) →
    ids.Pairwise (· < ·)

end Order

variable {K : Type} [Field K] [LinearOrder K]

section Outcomes

variable (E : Exponential K) (params : SamplingParams) (row : List (WithBot K))

/-- `min_p` lets a token pass. -/
def Passes (id : Nat) : Prop :=
  params.minP = 0 ∨ Vec.maxValue row + (E.log params.minP : K) ≤ row.getD id ⊥

/-- The first maximum stays if no token passes. -/
def Stays (id : Nat) : Prop :=
  Passes E params row id ∨ (∀ other < row.length, ¬ Passes E params row other) ∧ Leads row id

/-- The mass of some tokens before normalisation. -/
def mass (ids : List Nat) : K :=
  (ids.map (fun id => E.weight ((Vec.maxValue row).unbotD 0) (row.getD id ⊥))).sum

/-- The shortest prefix whose share of the mass reaches `top_p`; all tokens for `top_p = 1`. -/
structure Nucleus (ids kept : List Nat) : Prop where
  front : kept <+: ids
  all : 1 ≤ params.topP → kept = ids
  reaches : params.topP < 1 → (params.topP : K) ≤ mass E row kept / mass E row ids
  shortest : params.topP < 1 → ∀ other, other <+: ids →
    (params.topP : K) ≤ mass E row other / mass E row ids → kept.length ≤ other.length

/-- `token` is the first of `ids` whose cumulative probability reaches `r`. Probabilities are
shares of the mass of `whole`. -/
def FirstReaching (whole ids : List Nat) (r : K) (token : Nat) : Prop :=
  ∃ index, ids[index]? = some token ∧
    r ≤ mass E row (ids.take (index + 1)) / mass E row whole ∧
    ∀ earlier < index, mass E row (ids.take (earlier + 1)) / mass E row whole < r

/-- `token` is drawn from the `good` tokens that `top_k` and `top_p` leave, in the order that
`listed` gives them. The random source has given `value`, a part of their probability. -/
def Drawn (good : Nat → Prop) (listed : List Nat → List Nat → List Nat → Prop) (value : K)
    (token : Nat) : Prop :=
  ∃ ranked kept ids, Ranking row good ranked ∧
    Nucleus E params row (firstTopK params ranked) kept ∧ listed ranked kept ids ∧
    0 < mass E row ids / mass E row (firstTopK params ranked) ∧
    FirstReaching E row (firstTopK params ranked) ids
      (value * (mass E row ids / mass E row (firstTopK params ranked))) token

end Outcomes

section Candidates

variable {E : Exponential K} {params : SamplingParams} {row : List (WithBot K)}

theorem minPIds_ascends : (minPIds E params row).Pairwise (· < ·) := by
  unfold minPIds
  split
  · dsimp only
    split
    · exact pairwise_singleton _ _
    · exact pairwise_lt_range.filter _
  · exact pairwise_lt_range

/-- The candidates behind `min_p` are the tokens that stay. -/
theorem mem_minPIds (finite : ∃ x ∈ row, x ≠ ⊥) (low : 0 ≤ params.minP) {id : Nat} :
    id ∈ minPIds E params row ↔ id < row.length ∧ Stays E params row id := by
  unfold minPIds
  by_cases positive : 0 < params.minP
  · rw [if_pos positive]
    have passes : ∀ id, Passes E params row id ↔
        Vec.maxValue row + (E.log params.minP : K) ≤ row.getD id ⊥ :=
      fun id => or_iff_right (ne_of_gt positive)
    dsimp only
    split
    · rename_i none
      have nobody : ∀ other < row.length, ¬ Passes E params row other := by
        simpa [passes] using none
      rw [mem_singleton]
      constructor
      · rintro rfl
        exact ⟨(argmax_leads finite).1, .inr ⟨nobody, argmax_leads finite⟩⟩
      · rintro ⟨inside, passing | ⟨_, leads⟩⟩
        · exact (nobody id inside passing).elim
        · exact leads_unique leads (argmax_leads finite)
    · rename_i some
      have somebody : ¬ ∀ other < row.length, ¬ Passes E params row other := by
        simpa [passes] using some
      rw [mem_filter, mem_range, decide_eq_true_eq, ← passes]
      exact and_congr_right (fun _ => (or_iff_left (fun alone => somebody alone.1)).symm)
  · have all : params.minP = 0 := le_antisymm (not_lt.mp positive) low
    simp [Stays, Passes, all]

variable {ids : List Nat} {mx : K}

theorem mass_perm {other : List Nat} (same : ids.Perm other) : mass E row ids = mass E row other :=
  (same.map _).sum_eq

/-- The probabilities of candidates, as the sampler computes them. -/
def shares (E : Exponential K) (row : List (WithBot K)) (mx : K) (ids : List Nat) : List K :=
  let weights := ids.map (fun id => E.weight mx (row.getD id ⊥))
  weights.map (· / weights.sum)

theorem shares_length (mx : K) (ids : List Nat) : (shares E row mx ids).length = ids.length := by
  simp [shares]

theorem sum_take_shares (top : Vec.maxValue row = mx) (ids : List Nat) (count : Nat) :
    ((shares E row mx ids).take count).sum = mass E row (ids.take count) / mass E row ids := by
  simp only [shares, mass, top, WithBot.unbotD_coe, div_eq_mul_inv, ← map_take,
    sum_map_mul_right, map_id']

/-- The number of candidates that `top_p` keeps. -/
def keepCount (E : Exponential K) (params : SamplingParams) (row : List (WithBot K)) (mx : K)
    (ids : List Nat) : Nat :=
  if params.topP < 1 ∧ 1 < ids.length then massCount (params.topP : K) 0 (shares E row mx ids)
  else ids.length

theorem candidates_eq [FloorRing K] (mx : K) : candidates E params row mx =
    ((topKIds params row (minPIds E params row)).take
      (keepCount E params row mx (topKIds params row (minPIds E params row))),
    (shares E row mx (topKIds params row (minPIds E params row))).take
      (keepCount E params row mx (topKIds params row (minPIds E params row)))) := rfl

theorem massCount_pos {topP cum : K} {probs : List K} (filled : 0 < probs.length) :
    0 < massCount topP cum probs := by
  cases probs with
  | nil => cases filled
  | cons p probs =>
    rw [massCount]
    split <;> omega

/-- A single candidate is kept whether or not the loop runs. -/
theorem take_keepCount (below : params.topP < 1) :
    ids.take (keepCount E params row mx ids) =
      ids.take (massCount (params.topP : K) 0 (shares E row mx ids)) := by
  unfold keepCount
  by_cases several : 1 < ids.length
  · rw [if_pos ⟨below, several⟩]
  rw [if_neg (fun cut => several cut.2), take_length, take_of_length_le]
  by_cases none : ids.length = 0
  · omega
  · have positive : 0 < massCount (params.topP : K) 0 (shares E row mx ids) :=
      massCount_pos (by rw [shares_length]; omega)
    omega

variable [IsStrictOrderedRing K]

/-- The loop of `top_p` finds the nucleus. -/
theorem massCount_nucleus (top : Vec.maxValue row = mx) (weighs : 0 < mass E row ids)
    (share : 0 < params.topP) (below : params.topP < 1) :
    Nucleus E params row ids (ids.take (massCount (params.topP : K) 0 (shares E row mx ids))) where
  front := List.take_prefix _ _
  all := fun above => (not_lt_of_ge above below).elim
  reaches := by
    intro _
    rw [← sum_take_shares top]
    rcases massCount_spec (shares E row mx ids) with reached | all
    · exact le_of_le_of_eq reached (zero_add _)
    · rw [all, sum_take_shares top, shares_length, take_length, div_self (ne_of_gt weighs)]
      exact_mod_cast le_of_lt below
  shortest := by
    intro _ other front reached
    rw [prefix_iff_eq_take.mp front, ← sum_take_shares top, ← zero_add (List.sum _)] at reached
    have least := massCount_le (Rat.cast_pos.mpr share) reached
    rw [length_take]
    omega

variable [FloorRing K]

/-- `top_k` with or without sorting. -/
theorem topKIds_listing (ascends : ids.Pairwise (· < ·)) :
    Listing params (sort row ids) (firstTopK params (sort row ids)) (topKIds params row ids) := by
  have length : (sort row ids).length = ids.length := (sort_perm row ids).length_eq
  unfold topKIds
  rw [sortDesc_eq_sort]
  by_cases cut : 0 < params.topK ∧ params.topK < ids.length
  · have shape : firstTopK params (sort row ids) = (sort row ids).take params.topK.toNat :=
      if_neg (by omega)
    rw [if_pos cut, shape]
    refine ⟨.refl _, fun _ => rfl, ?_⟩
    intro whole
    exact (whole (.inl (by rw [length]; exact cut))).elim
  · have shape : firstTopK params (sort row ids) = sort row ids := by
      unfold firstTopK
      split
      · rfl
      · rw [take_of_length_le]
        omega
    rw [if_neg cut, shape]
    by_cases several : params.topP < 1 ∧ 1 < ids.length
    · rw [if_pos several]
      exact ⟨.refl _, fun _ => rfl, fun whole => (whole (.inr several.1)).elim⟩
    rw [if_neg several]
    refine ⟨(sort_perm row ids).symm, ?_, fun _ => ascends⟩
    rintro (again | nucleus)
    · rw [length] at again
      exact (cut again).elim
    · have short : ids.length ≤ 1 := Nat.le_of_not_lt (fun many => several ⟨nucleus, many⟩)
      exact (Lib.CountingSort.sort_eq_self (sort_perm row) short).symm

/-- The candidates are what the truncations leave, with their shares of the mass. -/
theorem candidates_truncation (top : Vec.maxValue row = mx) (share : 0 < params.topP)
    (finite : ∃ x ∈ row, x ≠ ⊥) :
    let ranked := sort row (minPIds E params row)
    (candidates E params row mx).2.length = (candidates E params row mx).1.length ∧
    ∃ kept, Nucleus E params row (firstTopK params ranked) kept ∧
      Listing params ranked kept (candidates E params row mx).1 ∧
      ∀ count, ((candidates E params row mx).2.take count).sum =
        mass E row ((candidates E params row mx).1.take count) /
          mass E row (firstTopK params ranked) := by
  intro ranked
  have listing : Listing params ranked (firstTopK params ranked)
      (topKIds params row (minPIds E params row)) := topKIds_listing minPIds_ascends
  have weighs : 0 < mass E row (topKIds params row (minPIds E params row)) := by
    rw [mass, top]
    exact weights_pos finite mx
  rw [candidates_eq, ← mass_perm listing.perm]
  refine ⟨by simp [shares_length], ?_⟩
  dsimp only
  generalize topKIds params row (minPIds E params row) = ids at listing weighs ⊢
  simp only [take_take, sum_take_shares top, implies_true, and_true]
  by_cases below : params.topP < 1
  · have same := listing.inOrder (.inr below)
    refine ⟨ids.take (keepCount E params row mx ids), ?_, .refl _, fun _ => rfl, ?_⟩
    · rw [← same, take_keepCount below]
      exact massCount_nucleus top weighs share below
    · intro whole
      exact (whole (.inr below)).elim
  · have all : ids.take (keepCount E params row mx ids) = ids := by
      rw [keepCount, if_neg (fun cut => below cut.1), take_length]
    refine ⟨firstTopK params ranked, ⟨prefix_refl _, fun _ => rfl, ?_, ?_⟩, ?_⟩
    · exact fun less => (below less).elim
    · exact fun less => (below less).elim
    · rw [all]
      exact listing

/-- A draw takes the first candidate whose cumulative probability reaches the drawn value. -/
theorem draw_truncation (share : 0 < params.topP) (low : 0 ≤ params.minP)
    (finite : ∃ x ∈ row, x ≠ ⊥) {value : K} (nonneg : 0 ≤ value) (small : value < 1) :
    Drawn E params row (Stays E params row) (Listing params) value (draw E params row value) := by
  have ranking : Ranking row (Stays E params row) (sort row (minPIds E params row)) :=
    sort_ranking (minPIds_ascends.imp Nat.ne_of_lt) (fun _ => mem_minPIds finite low)
  unfold draw
  split
  · rename_i none
    exact (Vec.maxValue_ne_bot finite none).elim
  rename_i mx top
  have positive := (candidates_spec (E := E) share finite mx).1
  obtain ⟨length, kept, nucleus, listing, sums⟩ := candidates_truncation (E := E) top share finite
  generalize candidates E params row mx = found at positive length listing sums ⊢
  obtain ⟨ids, probs⟩ := found
  dsimp only at positive length listing sums ⊢
  have total := sums ids.length
  rw [← length, take_length, length, take_length] at total
  obtain ⟨index, inside, picked, reached, before⟩ := pick_first (mul_nonneg nonneg positive.le)
    (mul_lt_of_lt_one_left positive small)
  rw [sums, total] at reached
  simp only [sums, total] at before
  refine ⟨_, kept, ids, ranking, nucleus, listing, total ▸ positive, index, ?_, reached, before⟩
  rw [picked, Option.getD_some, getD_eq_getElem?_getD,
    getElem?_eq_getElem (length ▸ inside), Option.getD_some]

end Candidates

end Iian.Sampler

namespace Iian.Exponential

theorem half_exp_pos (x : ℚ) : 0 < rational.exp x / 2 := half_pos (rational.pos x)

theorem half_exp_strictMono {x y : ℚ} (less : x < y) : rational.exp x / 2 < rational.exp y / 2 := by
  linarith [rational.strictMono less]

theorem half_log_exp (x : ℚ) : rational.log (2 * (rational.exp x / 2)) = x := by
  rw [mul_div_cancel₀ _ two_ne_zero, rational.log_exp]

/-- Half of `Exponential.rational`, which is less than 1 at 0. -/
def half : Exponential ℚ where
  exp := fun x => rational.exp x / 2
  log := fun p => rational.log (2 * p)
  pos := half_exp_pos
  strictMono := half_exp_strictMono
  log_exp := half_log_exp

end Iian.Exponential

namespace Iian.SamplerState

open Sampler

section Samples

variable {K : Type} [Field K] [LinearOrder K] [FloorRing K] {R : RandomSource K}

/-- The row that a sample is drawn from: it is processed and scaled by the temperature. -/
def scaledRow (s : SamplerState R) (row : List (WithBot K)) (prompt output : List Token) :
    List (WithBot K) :=
  (s.params.process prompt output row).map (fun x => x.map (· * (1 / (s.params.temperature : K))))

/-- The sample is drawn from the tokens that pass, in the order of the truncations. -/
def DrawsInOrder (E : Exponential K) (s : SamplerState R) (row : List (WithBot K))
    (prompt output : List Token) : Prop :=
  ∃ token : Nat, (s.sample E row prompt output).1.token = token ∧
    Drawn E s.params (s.scaledRow row prompt output)
      (Passes E s.params (s.scaledRow row prompt output)) (fun _ kept ids => ids = kept)
      (R.uniform s.rng).1 token

/-- Every sample is drawn from exactly the tokens that the truncations leave, whatever the
number of candidates is. A temperature below `1e-5` takes the first maximum instead, and the
first maximum is the only candidate if no token passes `min_p`. -/
theorem sample_truncates [IsStrictOrderedRing K] (E : Exponential K) (s : SamplerState R)
    {row : List (WithBot K)} {prompt output : List Token}
    (finite : ∃ x ∈ s.params.process prompt output row, x ≠ ⊥) (share : 0 < s.params.topP)
    (low : 0 ≤ s.params.minP) :
    ∃ token : Nat, (s.sample E row prompt output).1.token = token ∧
      (s.params.temperature < 1 / 100000 → Leads (s.params.process prompt output row) token) ∧
      (1 / 100000 ≤ s.params.temperature →
        Drawn E s.params (s.scaledRow row prompt output)
          (Stays E s.params (s.scaledRow row prompt output)) (Listing s.params)
          (R.uniform s.rng).1 token) := by
  refine ⟨_, sample_token E s row prompt output, ?_, ?_⟩
  · intro cold
    rw [choose, if_pos (by simpa [SamplingParams.isGreedy] using cold)]
    exact argmax_leads finite
  · intro warm
    rw [choose, if_neg (by simpa [SamplingParams.isGreedy] using warm)]
    exact draw_truncation share low (scaled_finite finite _) (R.nonneg _) (R.lt_one _)

end Samples

/-- A sampler with these parameters that always draws the middle. -/
def middle (params : SamplingParams) : SamplerState RandomSource.middle where
  params := params
  rng := ()

/-- Two of three tokens pass `min_p` and `top_k`, and `top_p` leaves one. -/
def narrow : SamplingParams := { topK := 2, topP := 1 / 2, minP := 1 / 4 }

/-- The row of three tokens that `narrow` is applied to. -/
def narrowRow : List Score := [0, 1, 0]

theorem sample_truncates_narrow :
    ∃ token : Nat, ((middle narrow).sample .rational narrowRow [] []).1.token = token ∧
      (narrow.temperature < 1 / 100000 → Leads (narrow.process [] [] narrowRow) token) ∧
      (1 / 100000 ≤ narrow.temperature →
        Drawn .rational narrow ((middle narrow).scaledRow narrowRow [] [])
          (Stays .rational narrow ((middle narrow).scaledRow narrowRow [] [])) (Listing narrow)
          (1 / 2) token) :=
  sample_truncates .rational (middle narrow) ⟨0, by decide +kernel, by decide⟩
    (by decide +kernel) (by decide +kernel)

/-- If nothing is truncated, a draw in order is from all tokens. -/
theorem DrawsInOrder.whole {E : Exponential ℚ} {params : SamplingParams} {row : List Score}
    {ranked : List Nat} {token : Nat} (draws : DrawsInOrder E (middle params) row [] [])
    (untruncated : params.minP = 0 ∧ params.topK = 0 ∧ params.topP = 1)
    (order : sort ((middle params).scaledRow row [] [])
      (List.range ((middle params).scaledRow row [] []).length) = ranked)
    (sampled : ((middle params).sample E row [] []).1.token = token) :
    FirstReaching E ((middle params).scaledRow row [] []) ranked ranked
      (1 / 2 * (mass E ((middle params).scaledRow row [] []) ranked /
        mass E ((middle params).scaledRow row [] []) ranked)) token := by
  obtain ⟨id, drawn, other, kept, ids, ranking, nucleus, rfl, _, reaching⟩ := draws
  have here : id = token := Int.ofNat_inj.mp (drawn.symm.trans sampled)
  have same : other = ranked := by
    rw [← order]
    exact ranking.unique (sort_ranking List.nodup_range (by simp [Passes, middle, untruncated.1]))
  have top : firstTopK (middle params).params other = other := if_pos (le_of_eq untruncated.2.1)
  have all : ids = other := (nucleus.all (ge_of_eq untruncated.2.2)).trans top
  rw [top, all, same, here] at reaching
  exact reaching

/-- Three readings fail: a temperature below `1e-5` draws nothing, no token may pass `min_p`,
and without a truncation the candidates are in the order of their ids. -/
theorem sample_not_inOrder :
    ¬ DrawsInOrder .rational (middle { temperature := 1 / 1000000 }) [0, 0, 0] [] [] ∧
    ¬ DrawsInOrder .half (middle { minP := 1 }) [0] [] [] ∧
    ¬ DrawsInOrder .rational (middle {}) [0, 0, 1] [] [] := by
  refine ⟨?_, ?_, ?_⟩
  · intro draws
    -- the first of three equal tokens has a third of the mass, and a half is drawn
    obtain ⟨index, found, reached, _⟩ := draws.whole ⟨rfl, rfl, rfl⟩
      (show _ = [0, 1, 2] by decide +kernel) (show _ = ((0 : Nat) : Int) by decide +kernel)
    match index, found, reached with
    | 0, _, reached => exact absurd reached (by decide +kernel)
    | index + 1, found, _ =>
      have later : 0 ∈ [1, 2] := @List.mem_of_getElem? _ _ index _ found
      exact absurd later (by decide)
  · rintro ⟨token, _, ranked, kept, ids, ranking, nucleus, rfl, _, index, found, _⟩
    have member : token ∈ ranked := by
      have front := nucleus.all (by decide)
      rw [front] at found
      exact List.mem_of_getElem? found
    obtain ⟨inside, passes⟩ := (ranking.listed token).mp member
    have zero : token = 0 := Nat.lt_one_iff.mp inside
    subst zero
    revert passes
    unfold Passes
    decide +kernel
  · intro draws
    -- token 1 is last in the order, behind the half of token 2 that was drawn
    obtain ⟨index, found, _, before⟩ := draws.whole ⟨rfl, rfl, rfl⟩
      (show _ = [2, 0, 1] by decide +kernel) (show _ = ((1 : Nat) : Int) by decide +kernel)
    match index, found, before with
    | 0, found, _ => cases found
    | index + 1, _, before => exact absurd (before 0 (Nat.succ_pos index)) (by decide +kernel)

end Iian.SamplerState
