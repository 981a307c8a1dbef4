import Mathlib.Data.List.Basic

/- Pieces of a text that are handed out one after another while the text may still grow. -/
namespace Iian.Lib

open List

variable {α : Type}

theorem take_leads {front text : List α} (leads : front <+: text) {count : Nat}
    (inside : count ≤ front.length) : front.take count = text.take count := by
  obtain ⟨more, rfl⟩ := leads
  rw [take_append_of_le_length inside]

/-- The part of a text between two places. -/
def slice (text : List α) (start stop : Nat) : List α := (text.drop start).take (stop - start)

/-- `pieces` are the text up to `sent`, cut into consecutive slices; `cut` holds of every place
at which a slice with something in it ends. -/
inductive Slices (text : List α) (cut : Nat → Prop) : List (List α) → Nat → Prop
  | nil : Slices text cut [] 0
  | blank {pieces : List (List α)} {sent : Nat} (front : Slices text cut pieces sent) :
      Slices text cut (pieces ++ [[]]) sent
  | next {pieces : List (List α)} {sent stop : Nat} (front : Slices text cut pieces sent)
      (later : sent ≤ stop) (inside : stop ≤ text.length) (ends : cut stop) :
      Slices text cut (pieces ++ [slice text sent stop]) stop

namespace Slices

variable {text other : List α} {cut : Nat → Prop} {pieces : List (List α)} {sent : Nat}

theorem bound (slices : Slices text cut pieces sent) : sent ≤ text.length := by
  induction slices with
  | nil => exact Nat.zero_le _
  | blank _ ih => exact ih
  | next _ _ inside _ _ => exact inside

theorem flatten (slices : Slices text cut pieces sent) : pieces.flatten = text.take sent := by
  induction slices with
  | nil => rfl
  | blank _ ih => simpa using ih
  | @next pieces sent stop _ later _ _ ih =>
    rw [flatten_append, ih, flatten_singleton, slice]
    conv_rhs => rw [show stop = sent + (stop - sent) by omega, take_add]

theorem imp {cut' : Nat → Prop} (slices : Slices text cut pieces sent)
    (weaker : ∀ stop, cut stop → cut' stop) : Slices text cut' pieces sent := by
  induction slices with
  | nil => exact .nil
  | blank _ ih => exact .blank ih
  | next _ later inside ends ih => exact .next ih later inside (weaker _ ends)

theorem slice_of_take {limit start stop : Nat} (below : stop ≤ limit)
    (same : other.take limit = text.take limit) :
    slice other start stop = slice text start stop := by
  have shorter : ∀ list : List α,
      slice list start stop = ((list.take limit).take stop).drop start := by
    intro list
    rw [slice, take_take, Nat.min_eq_left below, drop_take]
  rw [shorter, shorter, same]

/-- Another text will do if it starts with what has been handed out. -/
theorem congr {limit : Nat} (slices : Slices text cut pieces sent) (below : sent ≤ limit)
    (inside : limit ≤ other.length) (same : other.take limit = text.take limit) :
    Slices other cut pieces sent := by
  induction slices with
  | nil => exact .nil
  | blank _ ih => exact .blank (ih below)
  | @next pieces sent stop _ later _ ends ih =>
    rw [← slice_of_take below same]
    exact .next (ih (Nat.le_trans later below)) later (Nat.le_trans below inside) ends

theorem grow {longer : List α} (slices : Slices text cut pieces sent) (grows : text <+: longer) :
    Slices longer cut pieces sent := by
  apply slices.congr slices.bound grows.length_le
  rw [← prefix_iff_eq_take.mp grows, take_length]

/-- What holds of every slice between two cuts holds of every piece. -/
theorem all {good : List α → Prop} (blank : good [])
    (between : ∀ start stop, start = 0 ∨ cut start → cut stop → start ≤ stop → stop ≤ sent →
      good (slice text start stop))
    (slices : Slices text cut pieces sent) : ∀ piece ∈ pieces, good piece := by
  have facts : (sent = 0 ∨ cut sent) ∧ ∀ piece ∈ pieces, good piece := by
    induction slices with
    | nil => simp
    | @blank pieces sent _ ih =>
      obtain ⟨last, old⟩ := ih between
      refine ⟨last, ?_⟩
      exact forall_mem_append.mpr ⟨old, forall_mem_singleton.mpr blank⟩
    | @next pieces sent stop front later inside ends ih =>
      obtain ⟨last, old⟩ := ih (fun start stop first second order below =>
        between start stop first second order (Nat.le_trans below later))
      refine ⟨.inr ends, ?_⟩
      refine forall_mem_append.mpr ⟨old, forall_mem_singleton.mpr ?_⟩
      exact between sent stop last ends later (Nat.le_refl _)
  exact facts.2

end Slices

end Iian.Lib
