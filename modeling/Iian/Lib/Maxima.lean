import Mathlib.Order.Lattice

/- Running maxima and minima over a list. -/
namespace Iian.Lib

open List

variable {α β : Type} [LinearOrder β] (key : α → β) (items : List α) (start : β)

/-- A running maximum has passed its start and every item. -/
theorem le_foldl_max :
    start ≤ items.foldl (fun most item => max most (key item)) start ∧
      ∀ item ∈ items, key item ≤ items.foldl (fun most item => max most (key item)) start := by
  induction items generalizing start with
  | nil => exact ⟨le_refl start, forall_mem_nil _⟩
  | cons first items ih =>
    obtain ⟨low, each⟩ := ih (max start (key first))
    exact ⟨(le_max_left _ _).trans low,
      forall_mem_cons.mpr ⟨(le_max_right _ _).trans low, each⟩⟩

theorem foldl_min_le {item : α} (member : item ∈ items) :
    items.foldl (fun least item => min least (key item)) start ≤ key item :=
  (@le_foldl_max α βᵒᵈ _ key items start).2 item member

end Iian.Lib
