import Iian.Sampler
import Mathlib.Algebra.Order.Floor.Ring
import Mathlib.Tactic.Linarith

/- The largest entry of a row and the order of the candidates. Large sets of candidates are
sorted by way of buckets, with the same result. -/
namespace Iian

open List

variable {K : Type} [LinearOrder K]

variable {row : List (WithBot K)} {a b : Nat}

namespace Vec

theorem maxValue_ge (row : List (WithBot K)) : ∀ x ∈ row, x ≤ maxValue row := by
  have loop : ∀ (row : List (WithBot K)) (start : WithBot K),
      start ≤ row.foldl (fun mx x => if mx < x then x else mx) start ∧
      ∀ x ∈ row, x ≤ row.foldl (fun mx x => if mx < x then x else mx) start := by
    intro row
    induction row with
    | nil => intro start; simp
    | cons first row ih =>
      intro start
      obtain ⟨low, each⟩ := ih (if start < first then first else start)
      rw [foldl_cons]
      have step : start ≤ (if start < first then first else start) ∧
          first ≤ (if start < first then first else start) := by
        split
        · rename_i less
          exact ⟨le_of_lt less, le_refl _⟩
        · rename_i more
          exact ⟨le_refl _, le_of_not_gt more⟩
      refine ⟨le_trans step.1 low, ?_⟩
      exact forall_mem_cons.mpr ⟨le_trans step.2 low, each⟩
  exact (loop row ⊥).2

theorem maxValue_mem (finite : ∃ x ∈ row, x ≠ ⊥) : maxValue row ∈ row := by
  have loop : ∀ (row : List (WithBot K)) (start : WithBot K),
      row.foldl (fun mx x => if mx < x then x else mx) start = start ∨
      row.foldl (fun mx x => if mx < x then x else mx) start ∈ row := by
    intro row
    induction row with
    | nil => intro start; simp
    | cons first row ih =>
      intro start
      rw [foldl_cons]
      rcases ih (if start < first then first else start) with same | later
      · rw [same]
        split
        · exact .inr mem_cons_self
        · exact .inl rfl
      · exact .inr (mem_cons_of_mem _ later)
  rcases loop row ⊥ with none | member
  · obtain ⟨x, inside, some⟩ := finite
    have bound := maxValue_ge row x inside
    rw [maxValue, none, le_bot_iff] at bound
    exact (some bound).elim
  · exact member

theorem maxValue_ne_bot (finite : ∃ x ∈ row, x ≠ ⊥) : maxValue row ≠ ⊥ := by
  intro none
  obtain ⟨x, member, above⟩ := finite
  have bound := maxValue_ge row x member
  rw [none, le_bot_iff] at bound
  exact above bound

/-- `argmax` finds a largest entry. -/
theorem argmax_spec (finite : ∃ x ∈ row, x ≠ ⊥) :
    argmax row < row.length ∧ row.getD (argmax row) ⊥ = maxValue row := by
  have found : ∃ x ∈ row, decide (x = maxValue row) = true :=
    ⟨maxValue row, maxValue_mem finite, by simp⟩
  have inside : argmax row < row.length := findIdx_lt_length.mpr found
  refine ⟨inside, ?_⟩
  have here := @findIdx_getElem _ (fun x => decide (x = maxValue row)) row inside
  rw [getD_eq_getElem?_getD, getElem?_eq_getElem inside]
  exact of_decide_eq_true here

end Vec

namespace Sampler

variable {row : List (WithBot K)}

theorem descends_total (row : List (WithBot K)) (a b : Nat) :
    descends row a b = true ∨ descends row b a = true := by
  simp only [descends, Bool.or_eq_true, Bool.and_eq_true, decide_eq_true_eq, beq_iff_eq]
  rcases lt_trichotomy (row.getD a ⊥) (row.getD b ⊥) with less | same | more
  · exact .inr (.inl less)
  · rcases Nat.le_total a b with before | after
    · exact .inl (.inr ⟨same, before⟩)
    · exact .inr (.inr ⟨same.symm, after⟩)
  · exact .inl (.inl more)

theorem descends_trans {c : Nat} (first : descends row a b = true)
    (second : descends row b c = true) : descends row a c = true := by
  simp only [descends, Bool.or_eq_true, Bool.and_eq_true, decide_eq_true_eq, beq_iff_eq]
    at first second ⊢
  rcases first with more | ⟨same, before⟩
  · rcases second with again | ⟨equal, _⟩
    · exact .inl (lt_trans again more)
    · exact .inl (equal ▸ more)
  · rcases second with again | ⟨equal, after⟩
    · exact .inl (same ▸ again)
    · exact .inr ⟨same.trans equal, Nat.le_trans before after⟩

/-- No two candidates are equal in the order. -/
theorem descends_antisymm (first : descends row a b = true) (second : descends row b a = true) :
    a = b := by
  simp only [descends, Bool.or_eq_true, Bool.and_eq_true, decide_eq_true_eq, beq_iff_eq]
    at first second
  rcases first with more | ⟨same, before⟩
  · rcases second with again | ⟨equal, _⟩
    · exact (lt_asymm more again).elim
    · exact (ne_of_lt more equal).elim
  · rcases second with again | ⟨_, after⟩
    · exact (ne_of_lt again same).elim
    · exact Nat.le_antisymm before after

theorem descends_le (ahead : descends row a b = true) : row.getD b ⊥ ≤ row.getD a ⊥ := by
  simp only [descends, Bool.or_eq_true, Bool.and_eq_true, decide_eq_true_eq, beq_iff_eq] at ahead
  rcases ahead with more | ⟨same, _⟩
  · exact le_of_lt more
  · exact le_of_eq same.symm

theorem sort_pairwise (row : List (WithBot K)) (ids : List Nat) :
    (sort row ids).Pairwise (fun a b => descends row a b = true) := by
  have total : Std.Total (fun a b => descends row a b = true) := ⟨descends_total row⟩
  have trans : IsTrans Nat (fun a b => descends row a b = true) :=
    ⟨fun _ _ _ first second => descends_trans first second⟩
  exact pairwise_insertionSort _ ids

theorem sort_perm (row : List (WithBot K)) (ids : List Nat) : (sort row ids).Perm ids :=
  perm_insertionSort _ ids

theorem mem_sort {ids : List Nat} {id : Nat} : id ∈ sort row ids ↔ id ∈ ids := mem_insertionSort _

section Buckets

variable [Field K] [FloorRing K]

theorem bucketOf_lt (low high : K) (x : WithBot K) : bucketOf low high x < 256 := by
  induction x using WithBot.recBotCoe with
  | bot => exact (by decide : 255 < 256)
  | coe x =>
    unfold bucketOf
    dsimp only
    omega

variable [IsStrictOrderedRing K]

/-- Larger logits have earlier buckets; `-INFINITY` shares the last one with the smallest. -/
theorem bucketOf_anti {low high : K} (wide : low < high) {x y : WithBot K} (less : x ≤ y) :
    bucketOf low high y ≤ bucketOf low high x := by
  induction x using WithBot.recBotCoe with
  | bot => exact Nat.le_of_lt_succ (bucketOf_lt low high y)
  | coe x =>
    induction y using WithBot.recBotCoe with
    | bot => exact (WithBot.not_coe_le_bot x less).elim
    | coe y =>
      have scale : 0 ≤ 255 / (high - low) := div_nonneg (by norm_num) (by linarith)
      have floors := Int.floor_mono
        (mul_le_mul_of_nonneg_right (sub_le_sub_right (WithBot.coe_le_coe.mp less) low) scale)
      unfold bucketOf
      dsimp only
      omega

/-- Bucket by bucket or not, the candidates end up in their order. -/
theorem sortDesc_eq_sort (row : List (WithBot K)) (ids : List Nat) :
    sortDesc row ids = sort row ids := by
  unfold sortDesc
  split
  · rfl
  dsimp only
  split
  · rename_i low high _ _
    split
    · rename_i wide
      apply Lib.CountingSort.bucketSort_eq_sort (fun _ _ => descends_antisymm) (sort_perm row)
        (sort_pairwise row) (fun _ _ => bucketOf_lt low high _)
      intro a b earlier
      rcases descends_total row a b with ahead | behind
      · exact ahead
      · have later := bucketOf_anti wide (descends_le behind)
        omega
    · rfl
  · rfl

end Buckets

end Sampler

end Iian
