import Mathlib.Data.List.Induction
import Mathlib.Data.List.Nodup

/- Lists that consist of runs, where every key stands a number of times in a row, or of
blocks of one size. -/
namespace Iian.Lib

open List

variable {κ : Type}

/-- Every key as often as its run says, run after run. -/
def spread (runs : List (κ × Nat)) : List κ :=
  runs.flatMap (fun run => List.replicate run.2 run.1)

@[simp] theorem spread_nil : spread ([] : List (κ × Nat)) = [] := rfl

@[simp] theorem spread_append (front back : List (κ × Nat)) :
    spread (front ++ back) = spread front ++ spread back := flatMap_append

@[simp] theorem spread_cons (run : κ × Nat) (back : List (κ × Nat)) :
    spread (run :: back) = List.replicate run.2 run.1 ++ spread back := flatMap_cons

theorem mem_spread {runs : List (κ × Nat)} {key : κ} (member : key ∈ spread runs) :
    key ∈ runs.map Prod.fst := by
  obtain ⟨run, inside, same⟩ := mem_flatMap.mp member
  rw [eq_of_mem_replicate same]
  exact mem_map_of_mem inside

theorem spread_mem {runs : List (κ × Nat)} {run : κ × Nat} (member : run ∈ runs)
    (some : 0 < run.2) : run.1 ∈ spread runs :=
  mem_flatMap.mpr ⟨run, member, mem_replicate.mpr ⟨by omega, rfl⟩⟩

section Split

variable {front back : List (κ × Nat)} {key : κ} {count : Nat}

section

variable (keys : ((front ++ (key, count) :: back).map Prod.fst).Nodup)
include keys

/-- A key stands in its own run only. -/
theorem spread_apart : key ∉ spread front ∧ key ∉ spread back := by
  simp only [map_append, map_cons, nodup_append, nodup_cons] at keys
  constructor
  · exact fun inside => keys.2.2 key (mem_spread inside) key mem_cons_self rfl
  · exact fun inside => keys.2.1.1 (mem_spread inside)

theorem spread_countP [DecidableEq κ] :
    (spread (front ++ (key, count) :: back)).countP (fun other => other = key) = count := by
  obtain ⟨before, behind⟩ := spread_apart keys
  have absent : ∀ {others : List κ}, key ∉ others → others.countP (fun other => other = key) = 0 := by
    intro others missing
    apply countP_eq_zero.mpr
    intro other member same
    exact missing ((decide_eq_true_eq.mp same) ▸ member)
  rw [spread_append, spread_cons, countP_append, countP_append, absent before,
    absent behind, countP_replicate]
  simp

theorem spread_findIdx [DecidableEq κ] (some : 0 < count) :
    (spread (front ++ (key, count) :: back)).findIdx (fun other => other = key) =
      (spread front).length := by
  obtain ⟨before, _⟩ := spread_apart keys
  obtain ⟨more, rfl⟩ := Nat.exists_eq_add_of_lt some
  rw [spread_append, findIdx_append, if_neg]
  · simp [replicate_succ, findIdx_cons]
  · intro found
    obtain ⟨other, member, same⟩ := findIdx_lt_length.mp found
    exact before ((decide_eq_true_eq.mp same) ▸ member)

/-- The places of a key are the range of its run. -/
theorem spread_places [DecidableEq κ] :
    (List.range (spread (front ++ (key, count) :: back)).length).filter
        (fun i => (spread (front ++ (key, count) :: back))[i]? = some key) =
      List.range' (spread front).length count := by
  obtain ⟨before, behind⟩ := spread_apart keys
  have absent : ∀ {others : List κ} {i : Nat}, key ∉ others → others[i]? ≠ some key :=
    fun missing found => missing (mem_of_getElem? found)
  rw [spread_append, spread_cons, length_append, length_append, length_replicate,
    range_eq_range', ← range'_append_1, ← range'_append_1, filter_append,
    filter_append, filter_eq_nil_iff.mpr, filter_eq_self.mpr,
    filter_eq_nil_iff.mpr]
  · simp
  · intro i inside
    rw [mem_range'_1] at inside
    rw [getElem?_append_right (by omega), getElem?_append_right (by simp; omega)]
    simpa using absent behind
  · intro i inside
    rw [mem_range'_1] at inside
    rw [getElem?_append_right (by omega), getElem?_append_left (by simp; omega),
      getElem?_replicate_of_lt (by omega)]
    simp
  · intro i inside
    rw [mem_range'_1] at inside
    rw [getElem?_append_left (by omega)]
    simpa using absent before

end

end Split

/-- The places of every key are a range. -/
def Contiguous (keys : List κ) : Prop :=
  ∀ key, ∃ start count : Nat, ∀ i : Nat, keys[i]? = some key ↔ start ≤ i ∧ i < start + count

variable {keys : List κ}

theorem Contiguous.dropLast {last : κ} (contiguous : Contiguous (keys ++ [last])) :
    Contiguous keys := by
  intro key
  obtain ⟨start, count, places⟩ := contiguous key
  refine ⟨start, min (start + count) keys.length - start, ?_⟩
  intro i
  by_cases inside : i < keys.length
  · rw [← getElem?_append_left inside, places]
    omega
  · rw [getElem?_eq_none (by omega)]
    simp
    omega

/-- A key that comes again stands last. -/
theorem Contiguous.again {last key : κ} (contiguous : Contiguous (keys ++ [last] ++ [key]))
    (member : key ∈ keys ++ [last]) : last = key := by
  obtain ⟨start, count, places⟩ := contiguous key
  obtain ⟨i, inside, found⟩ := mem_iff_getElem.mp member
  have first := (places i).mp (by
    rw [getElem?_append_left inside, getElem?_eq_getElem inside, found])
  have final := (places (keys ++ [last]).length).mp (by
    rw [getElem?_append_right (Nat.le_refl _)]
    simp)
  rw [length_append, length_singleton] at inside final
  have here := (places keys.length).mpr (by omega)
  rw [append_assoc, getElem?_append_right (Nat.le_refl _)] at here
  simpa using here

/-- A list whose keys stand together is a list of runs. -/
theorem Contiguous.runs (contiguous : Contiguous keys) :
    ∃ runs : List (κ × Nat), (runs.map Prod.fst).Nodup ∧ (∀ run ∈ runs, 0 < run.2) ∧
      spread runs = keys := by
  induction keys using List.reverseRecOn with
  | nil => exact ⟨[], by simp, by simp, rfl⟩
  | append_singleton keys key ih =>
    obtain ⟨runs, nodup, positive, same⟩ := ih contiguous.dropLast
    by_cases old : key ∈ runs.map Prod.fst
    · -- the key has come before, so the last run is its own
      have present : key ∈ keys := by
        obtain ⟨run, inside, equal⟩ := mem_map.mp old
        rw [← same, ← equal]
        exact spread_mem inside (positive run inside)
      rcases eq_nil_or_concat runs with none | ⟨front, ⟨last, count⟩, rfl⟩
      · simp [none] at old
      obtain ⟨more, enough⟩ := Nat.exists_eq_add_of_lt (positive (last, count) (by simp))
      have shape : keys = spread front ++ List.replicate more last ++ [last] := by
        rw [← same, append_assoc, ← replicate_succ', ← (by simpa using enough : count = more + 1)]
        simp
      rw [shape] at contiguous present
      rw [contiguous.again present] at nodup same shape
      refine ⟨front ++ [(key, count + 1)], by simpa using nodup, ?_, ?_⟩
      · intro run member
        rcases mem_append.mp member with before | here
        · exact positive run (by simp [before])
        · simp [mem_singleton.mp here]
      · rw [← same]
        simp [replicate_succ']
    · refine ⟨runs ++ [(key, 1)], ?_, ?_, by simp [same]⟩
      · rw [map_append, nodup_append]
        refine ⟨nodup, by simp, ?_⟩
        intro other before here there same
        have equal : here = key := by simpa using there
        rw [same, equal] at before
        exact old before
      · exact forall_mem_append.mpr ⟨positive, forall_mem_singleton.mpr Nat.one_pos⟩

/-- A block of a list of blocks that all have one size. -/
theorem block_flatMap {α : Type} {block : Nat → List α} {size : Nat}
    (sizes : ∀ k, (block k).length = size) {count k : Nat} (inside : k < count) :
    (((List.range count).flatMap block).drop (k * size)).take size = block k := by
  have before : ((List.range k).flatMap block).length = k * size := by
    rw [length_flatMap, map_congr_left (fun i _ => sizes i)]
    simp
  obtain ⟨more, rfl⟩ := Nat.exists_eq_add_of_lt inside
  rw [Nat.add_assoc, range_add, flatMap_append, drop_append_of_le_length (by omega),
    drop_of_length_le (Nat.le_of_eq before), nil_append, range_succ_eq_map,
    map_cons, flatMap_cons, Nat.add_zero,
    take_append_of_le_length (Nat.le_of_eq (sizes k).symm),
    take_of_length_le (Nat.le_of_eq (sizes k))]

/-- Index `s` stands `counts[s]` times, in the order of the indices. -/
def tile (counts : List Nat) : List Nat :=
  counts.zipIdx.flatMap (fun entry => List.replicate entry.1 entry.2)

theorem tile_concat (counts : List Nat) (count : Nat) :
    tile (counts ++ [count]) = tile counts ++ List.replicate count counts.length := by
  simp [tile, List.zipIdx_append]

/-- A tiling is a list of runs whose keys are the indices. -/
theorem tile_eq_spread (counts : List Nat) : tile counts = spread (counts.zipIdx.map Prod.swap) := by
  rw [tile, spread, List.flatMap_map]
  rfl

end Iian.Lib
