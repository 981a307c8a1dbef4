import Mathlib.Data.List.Nodup
import Mathlib.Data.List.Perm.Basic

/- Lists whose elements have different keys: looking an element up, replacing it and
removing it by its key. -/
namespace Iian.Lib.Keyed

open List

variable {α κ : Type} [DecidableEq κ] {key : α → κ}

/-- Replaces the element with the key of `value`. -/
def replace (key : α → κ) (value : α) (list : List α) : List α :=
  list.map (fun x => if key x = key value then value else x)

def remove (key : α → κ) (k : κ) (list : List α) : List α :=
  list.filter (fun x => key x ≠ k)

variable {list : List α} {x value : α}

theorem mem_remove {k : κ} : x ∈ remove key k list ↔ x ∈ list ∧ key x ≠ k := by
  simp [remove]

theorem remove_of_absent {k : κ} (absent : k ∉ list.map key) : remove key k list = list := by
  rw [remove, filter_eq_self]
  intro x member
  rw [decide_eq_true_eq]
  intro same
  exact absent (mem_map.mpr ⟨x, member, same⟩)

theorem replace_map {β : Type} {f : α → β} (same : ∀ x ∈ list, key x = key value → f value = f x) :
    (replace key value list).map f = list.map f := by
  rw [replace, map_map]
  apply map_congr_left
  intro x member
  simp only [Function.comp_apply]
  split
  · rename_i equal
    exact same x member equal
  · rfl

theorem replace_keys (value : α) (list : List α) :
    (replace key value list).map key = list.map key :=
  replace_map (fun _ _ same => same.symm)

section

variable (unique : (list.map key).Nodup) (member : x ∈ list)

include unique member

/-- An element stands in front of the list without its key. -/
theorem perm_cons_remove :
    list.Perm (x :: remove key (key x) list) := by
  induction list with
  | nil => cases member
  | cons y rest ih =>
    rw [map_cons, nodup_cons] at unique
    by_cases same : key y = key x
    · have equal : x = y := by
        rcases mem_cons.mp member with here | there
        · exact here
        · exact (unique.1 (mem_map.mpr ⟨x, there, same.symm⟩)).elim
      subst equal
      have kept : remove key (key x) (x :: rest) = rest := by
        have gone : remove key (key x) (x :: rest) = remove key (key x) rest := by
          simp [remove]
        rw [gone, remove_of_absent unique.1]
      rw [kept]
    · have there : x ∈ rest := by
        rcases mem_cons.mp member with here | there
        · exact (same (congrArg key here.symm)).elim
        · exact there
      have kept : remove key (key x) (y :: rest) = y :: remove key (key x) rest := by
        simp [remove, same]
      rw [kept]
      exact ((ih unique.2 there).cons y).trans (List.Perm.swap x y _)

/-- Replacing an element puts the new value in its place. -/
theorem replace_perm (same : key value = key x) :
    (replace key value list).Perm (value :: remove key (key x) list) := by
  have split := (perm_cons_remove unique member).map (fun y =>
    if key y = key value then value else y)
  rw [map_cons, same, if_pos rfl] at split
  have rest : (remove key (key x) list).map (fun y => if key y = key x then value else y) =
      remove key (key x) list := by
    conv_rhs => rw [← map_id (remove key (key x) list)]
    apply map_congr_left
    intro y kept
    rw [if_neg (mem_remove.mp kept).2]
    rfl
  rw [rest] at split
  rw [replace, same]
  exact split

/-- The same for what is read off the elements, when the others are read alike. -/
theorem replace_map_perm {β : Type} {f g : α → β} (same : key value = key x)
    (others : ∀ y ∈ list, key y ≠ key x → g y = f y) :
    ((replace key value list).map g).Perm (g value :: (remove key (key x) list).map f) := by
  have after := (replace_perm unique member same).map g
  rw [map_cons, map_congr_left (fun y inside =>
    others y (mem_remove.mp inside).1 (mem_remove.mp inside).2)] at after
  exact after

end

theorem mem_replace (member : x ∈ replace key value list) :
    x = value ∨ x ∈ list ∧ key x ≠ key value := by
  obtain ⟨y, inside, rfl⟩ := mem_map.mp member
  by_cases same : key y = key value
  · exact .inl (if_pos same)
  · rw [if_neg same]
    exact .inr ⟨inside, same⟩

theorem remove_getLast (unique : (list.map key).Nodup) (last : list.getLast? = some x) :
    remove key (key x) list = list.dropLast := by
  obtain ⟨front, rfl⟩ := getLast?_eq_some_iff.mp last
  rw [map_append, nodup_append] at unique
  have absent : key x ∉ front.map key := by
    intro inside
    exact unique.2.2 _ inside _ mem_cons_self rfl
  rw [dropLast_concat, remove, filter_append]
  have kept := remove_of_absent absent
  rw [remove] at kept
  rw [kept]
  simp

omit [DecidableEq κ] in
theorem eq_singleton (unique : (list.map key).Nodup) (first : list[0]? = some x)
    (last : list.getLast? = some x) : list = [x] := by
  obtain ⟨front, rfl⟩ := getLast?_eq_some_iff.mp last
  cases front with
  | nil => rfl
  | cons head front =>
    cases first
    rw [cons_append, map_cons, nodup_cons] at unique
    exact (unique.1 (mem_map.mpr ⟨_, mem_append_right _ mem_cons_self, rfl⟩)).elim

theorem find_of_mem (unique : (list.map key).Nodup) (member : x ∈ list) :
    list.find? (fun y => key y = key x) = some x := by
  cases found : list.find? (fun y => key y = key x) with
  | none =>
    have none := find?_eq_none.mp found x member
    simp at none
  | some y =>
    have same := find?_some found
    have inside := mem_of_find?_eq_some found
    simp only [decide_eq_true_eq] at same
    rw [inj_on_of_nodup_map unique inside member same]

end Iian.Lib.Keyed
