import Mathlib.Data.Finset.Card
import Mathlib.Logic.Relation

/- A search with a stack of pending items and a list of those it has seen. -/
namespace Iian.Lib.Worklist

open List

variable {α β ε : Type}

/-- One item pushes another. -/
def Edge (next : α → Except ε (List α)) (item succ : α) : Prop :=
  ∃ more, next item = .ok more ∧ succ ∈ more

abbrev Reaches (next : α → Except ε (List α)) : α → α → Prop := Relation.ReflTransGen (Edge next)

variable {next : α → Except ε (List α)}

/-- The items that a finished search has handed to `emit`. -/
structure Visits (next : α → Except ε (List α)) (todo seen visited : List α) : Prop where
  sound : ∀ item ∈ visited, ∃ start ∈ todo, Reaches next start item
  todo : ∀ item ∈ todo, item ∈ seen ∨ item ∈ visited
  closed : ∀ item succ, item ∈ seen ∨ item ∈ visited → Edge next item succ →
    succ ∈ seen ∨ succ ∈ visited

/-- What has been pushed by the items seen so far has been seen or is still to do. -/
def Pending (next : α → Except ε (List α)) (todo seen : List α) : Prop :=
  ∀ item ∈ seen, ∀ succ, Edge next item succ → succ ∈ seen ∨ succ ∈ todo

variable {seen more todo : List α} {acc : β}

theorem Visits.nil (pending : Pending next [] seen) : Visits next [] seen [] := by
  refine ⟨nofun, nofun, ?_⟩
  rintro item succ (old | none) edge
  · exact .inl ((pending item old succ edge).resolve_right not_mem_nil)
  · cases none

theorem edge_iff {item : α} (pushes : next item = .ok more) (succ : α) :
    Edge next item succ ↔ succ ∈ more := by
  refine ⟨?_, fun member => ⟨more, pushes, member⟩⟩
  rintro ⟨other, shape, member⟩
  rw [pushes] at shape
  cases shape
  exact member

section

variable {item : α} {todo seen visited : List α}

theorem Pending.skip (pending : Pending next (item :: todo) seen) (old : item ∈ seen) :
    Pending next todo seen := by
  intro other inside succ edge
  rcases pending other inside succ edge with before | pushed
  · exact .inl before
  · rcases mem_cons.mp pushed with equal | later
    · exact .inl (equal ▸ old)
    · exact .inr later

theorem Visits.skip (visits : Visits next todo seen visited) (old : item ∈ seen) :
    Visits next (item :: todo) seen visited := by
  refine ⟨?_, ?_, visits.closed⟩
  · intro other inside
    obtain ⟨start, member, path⟩ := visits.sound other inside
    exact ⟨start, mem_cons_of_mem _ member, path⟩
  · intro other inside
    rcases mem_cons.mp inside with equal | later
    · exact .inl (equal ▸ old)
    · exact visits.todo other later

theorem Pending.push (pending : Pending next (item :: todo) seen) (pushes : next item = .ok more) :
    Pending next (more.reverse ++ todo) (item :: seen) := by
  intro other inside succ edge
  rcases mem_cons.mp inside with equal | old
  · rw [equal, edge_iff pushes] at edge
    exact .inr (mem_append_left _ (mem_reverse.mpr edge))
  rcases pending other old succ edge with before | pushed
  · exact .inl (mem_cons_of_mem _ before)
  · rcases mem_cons.mp pushed with equal | later
    · exact .inl (equal ▸ mem_cons_self)
    · exact .inr (mem_append_right _ later)

theorem Visits.push (visits : Visits next (more.reverse ++ todo) (item :: seen) visited)
    (pushes : next item = .ok more) : Visits next (item :: todo) seen (item :: visited) := by
  have moved : ∀ other, other ∈ item :: seen ∨ other ∈ visited ↔
      other ∈ seen ∨ other ∈ item :: visited := by
    intro other
    rw [mem_cons, mem_cons]
    tauto
  refine ⟨?_, ?_, ?_⟩
  · intro other inside
    rcases mem_cons.mp inside with equal | later
    · exact ⟨item, mem_cons_self, equal ▸ .refl⟩
    obtain ⟨start, member, path⟩ := visits.sound other later
    rcases mem_append.mp member with pushed | old
    · exact ⟨item, mem_cons_self,
        .head ((edge_iff pushes start).mpr (mem_reverse.mp pushed)) path⟩
    · exact ⟨start, mem_cons_of_mem _ old, path⟩
  · intro other inside
    rcases mem_cons.mp inside with equal | later
    · exact .inr (equal ▸ mem_cons_self)
    · exact (moved other).mp (visits.todo other (mem_append_right _ later))
  · intro other succ inside edge
    exact (moved succ).mp (visits.closed other succ ((moved other).mpr inside) edge)

end

variable [DecidableEq α]

/-- Items are popped one at a time; a new one is handed to `emit` and pushes its successors,
or ends the search with an error. There is no result when the fuel runs out. -/
def run (next : α → Except ε (List α)) (emit : β → α → β) :
    Nat → List α → List α → β → Option (Except ε β)
  | _, [], _, acc => some (.ok acc)
  | 0, _ :: _, _, _ => none
  | fuel + 1, item :: todo, seen, acc =>
    if item ∈ seen then run next emit fuel todo seen acc
    else
      match next item with
      | .error error => some (.error error)
      | .ok more => run next emit fuel (more.reverse ++ todo) (item :: seen) (emit acc item)

variable {emit : β → α → β} {result : β}

/-- What is emitted does not influence the search. -/
theorem run_emit (fuel : Nat) (todo seen front : List α) (acc : β) :
    run next emit fuel todo seen (front.foldl emit acc) =
      (run next (fun found item => found ++ [item]) fuel todo seen front).map
        (Except.map (List.foldl emit acc)) := by
  induction fuel generalizing todo seen front with
  | zero => cases todo <;> simp [run, Except.map]
  | succ fuel ih =>
    cases todo with
    | nil => simp [run, Except.map]
    | cons item todo =>
      rw [run, run]
      split
      · exact ih todo seen front
      cases next item with
      | error error => rfl
      | ok more =>
        have rest := ih (more.reverse ++ todo) (item :: seen) (front ++ [item])
        rw [foldl_append] at rest
        exact rest

theorem run_visits (fuel : Nat) (ended : run next emit fuel todo seen acc = some (.ok result))
    (pending : Pending next todo seen) :
    ∃ visited : List α, result = visited.foldl emit acc ∧ Visits next todo seen visited := by
  induction fuel generalizing todo seen acc with
  | zero =>
    cases todo with
    | nil =>
      rw [run] at ended
      cases ended
      exact ⟨[], rfl, .nil pending⟩
    | cons item todo =>
      rw [run] at ended
      cases ended
  | succ fuel ih =>
    cases todo with
    | nil =>
      rw [run] at ended
      cases ended
      exact ⟨[], rfl, .nil pending⟩
    | cons item todo =>
      rw [run] at ended
      split at ended
      · rename_i old
        obtain ⟨visited, same, visits⟩ := ih ended (pending.skip old)
        exact ⟨visited, same, visits.skip old⟩
      · split at ended
        · cases ended
        · rename_i more pushes
          obtain ⟨visited, same, visits⟩ := ih ended (pending.push pushes)
          exact ⟨item :: visited, same, visits.push pushes⟩

/-- A search from one item visits exactly what that item reaches. -/
theorem run_reaches {fuel : Nat} {start : α}
    (ended : run next emit fuel [start] [] acc = some (.ok result)) :
    ∃ visited : List α, result = visited.foldl emit acc ∧
      ∀ item, item ∈ visited ↔ Reaches next start item := by
  obtain ⟨visited, same, visits⟩ := run_visits fuel ended (fun _ none => nomatch none)
  refine ⟨visited, same, fun item => ⟨?_, ?_⟩⟩
  · intro member
    obtain ⟨origin, single, path⟩ := visits.sound item member
    rw [mem_singleton.mp single] at path
    exact path
  · intro path
    induction path with
    | refl => exact (visits.todo start mem_cons_self).resolve_left not_mem_nil
    | tail _ edge ih =>
      exact (visits.closed _ _ (.inr ih) edge).resolve_left not_mem_nil

/-- An error is that of an item the search has reached. -/
theorem run_error (fuel : Nat) {error : ε}
    (ended : run next emit fuel todo seen acc = some (.error error)) :
    ∃ start ∈ todo, ∃ item, Reaches next start item ∧ next item = .error error := by
  induction fuel generalizing todo seen acc with
  | zero => cases todo <;> (rw [run] at ended; cases ended)
  | succ fuel ih =>
    cases todo with
    | nil =>
      rw [run] at ended
      cases ended
    | cons item todo =>
      rw [run] at ended
      split at ended
      · obtain ⟨start, member, found⟩ := ih ended
        exact ⟨start, mem_cons_of_mem _ member, found⟩
      split at ended
      · rename_i failed
        cases ended
        exact ⟨item, mem_cons_self, item, .refl, failed⟩
      · rename_i more pushes
        obtain ⟨start, member, last, path, failed⟩ := ih ended
        rcases mem_append.mp member with pushed | old
        · exact ⟨item, mem_cons_self, last,
            .head ⟨more, pushes, mem_reverse.mp pushed⟩ path, failed⟩
        · exact ⟨start, mem_cons_of_mem _ old, last, path, failed⟩

/-- The search ends when it stays within a finite set of items. -/
theorem run_ends (within : Finset α) {width : Nat}
    (few : ∀ item ∈ within, ∀ more, next item = .ok more → more.length ≤ width) (fuel : Nat)
    (bounded : ∀ start ∈ todo, ∀ item, Reaches next start item → item ∈ within)
    (unique : seen.Nodup) (old : ∀ item ∈ seen, item ∈ within)
    (enough : (within.card - seen.length) * (width + 1) + todo.length ≤ fuel) :
    ∃ result, run next emit fuel todo seen acc = some result := by
  induction fuel generalizing todo seen acc with
  | zero =>
    cases todo with
    | nil => exact ⟨_, rfl⟩
    | cons item todo => simp at enough
  | succ fuel ih =>
    cases todo with
    | nil => exact ⟨_, by rw [run]⟩
    | cons item todo =>
      have here := bounded item mem_cons_self item .refl
      rw [length_cons] at enough
      rw [run]
      split
      · exact ih (fun start member => bounded start (mem_cons_of_mem _ member)) unique old
          (by omega)
      rename_i new
      split
      · exact ⟨_, rfl⟩
      rename_i more pushes
      have room : seen.length < within.card := by
        have all : (item :: seen).toFinset ⊆ within := by
          intro other member
          rcases mem_cons.mp (mem_toFinset.mp member) with equal | before
          · exact equal ▸ here
          · exact old other before
        have count := Finset.card_le_card all
        rw [toFinset_card_of_nodup (nodup_cons.mpr ⟨new, unique⟩)] at count
        exact count
      refine ih ?_ (nodup_cons.mpr ⟨new, unique⟩) ?_ ?_
      · intro start member last path
        rcases mem_append.mp member with pushed | before
        · exact bounded item mem_cons_self last
            (.head ⟨more, pushes, mem_reverse.mp pushed⟩ path)
        · exact bounded start (mem_cons_of_mem _ before) last path
      · intro other member
        rcases mem_cons.mp member with equal | before
        · exact equal ▸ here
        · exact old other before
      · have pushed := few item here more pushes
        have split : within.card - seen.length = within.card - (seen.length + 1) + 1 := by
          omega
        rw [split, Nat.add_mul, Nat.one_mul] at enough
        rw [length_append, length_reverse, length_cons]
        omega

end Iian.Lib.Worklist
