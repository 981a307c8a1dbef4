import Iian.Sampler
import Mathlib.Data.Prod.Lex

/- `vec::top_k` against a stable sort: the buffer of its one pass holds the first entries of the
part that has been read, sorted. -/
namespace Iian.Vec

open List

section Insertion

variable {α : Type} {less : α → α → Prop} [DecidableRel less] {x y : α}

/-- Only the first items decide what is first after an insertion. -/
theorem take_orderedInsert (k : Nat) (items : List α) :
    ((items.take k).orderedInsert less x).take k = (items.orderedInsert less x).take k := by
  induction items generalizing k with
  | nil => rw [take_nil]
  | cons y items ih =>
    cases k with
    | zero => rfl
    | succ k =>
      rw [take_succ_cons, orderedInsert_cons, orderedInsert_cons]
      split
      · rw [take_succ_cons, take_succ_cons]
        cases k with
        | zero => rfl
        | succ k => rw [take_succ_cons, take_succ_cons, take_take, Nat.min_eq_left (Nat.le_succ k)]
      · rw [take_succ_cons, take_succ_cons, ih]

theorem orderedInsert_last {items : List α} (none : ∀ y ∈ items, ¬ less x y) :
    items.orderedInsert less x = items ++ [x] := by
  induction items with
  | nil => rfl
  | cons y items ih =>
    rw [orderedInsert_of_not_le _ _ (none y mem_cons_self),
      ih fun z member => none z (mem_cons_of_mem _ member), cons_append]

theorem orderedInsert_concat (here : less x y) (items : List α) :
    (items ++ [y]).orderedInsert less x = items.orderedInsert less x ++ [y] := by
  induction items with
  | nil => exact orderedInsert_cons_of_le _ _ here
  | cons z items ih =>
    rw [cons_append, orderedInsert_cons, orderedInsert_cons, ih]
    split <;> rfl

end Insertion

variable {K : Type} [LinearOrder K] {k : Nat} {a b c e : Nat × WithBot K}
    {list rest : List (Nat × WithBot K)}

/-- The entries of a row with their indices. -/
def entries (row : List (WithBot K)) : List (Nat × WithBot K) := row.zipIdx.map Prod.swap

/-- The order of the result: by descending value, then by index. -/
def Precedes (a b : Nat × WithBot K) : Prop := b.2 < a.2 ∨ a.2 = b.2 ∧ a.1 < b.1

theorem precedes_iff : Precedes a b ↔ toLex (OrderDual.toDual a.2, a.1) < toLex (OrderDual.toDual b.2, b.1) := by
  rw [Prod.Lex.toLex_lt_toLex, Precedes]
  simp

theorem Precedes.trans (first : Precedes a b) (second : Precedes b c) : Precedes a c :=
  precedes_iff.mpr (lt_trans (precedes_iff.mp first) (precedes_iff.mp second))

theorem Precedes.asymm (first : Precedes a b) (second : Precedes b a) : False :=
  lt_asymm (precedes_iff.mp first) (precedes_iff.mp second)

/-- An entry put before the first one it precedes. -/
theorem pairwise_orderedInsert {less : Nat × WithBot K → Nat × WithBot K → Prop} [DecidableRel less]
    (sorted : list.Pairwise Precedes) (before : ∀ b ∈ list, less e b → Precedes e b)
    (after : ∀ b ∈ list, ¬ less e b → Precedes b e) :
    (list.orderedInsert less e).Pairwise Precedes := by
  induction list with
  | nil => exact pairwise_singleton _ _
  | cons b rest ih =>
    obtain ⟨first, others⟩ := pairwise_cons.mp sorted
    rw [orderedInsert_cons]
    split
    · rename_i here
      have precedes := before b mem_cons_self here
      refine pairwise_cons.mpr ⟨?_, sorted⟩
      intro c member
      rcases mem_cons.mp member with rfl | later
      · exact precedes
      · exact precedes.trans (first c later)
    · rename_i later
      refine pairwise_cons.mpr ⟨?_, ih others (fun c member => before c (mem_cons_of_mem _ member))
        (fun c member => after c (mem_cons_of_mem _ member))⟩
      intro c member
      rcases (mem_orderedInsert _).mp member with rfl | old
      · exact after b mem_cons_self later
      · exact first c old

/-- The stable sort of entries in the order of their indices. -/
theorem pairwise_insertionSort (ordered : list.Pairwise (fun a b => a.1 < b.1)) :
    (list.insertionSort (fun a b => b.2 ≤ a.2)).Pairwise Precedes := by
  induction list with
  | nil => exact Pairwise.nil
  | cons e list ih =>
    obtain ⟨first, others⟩ := pairwise_cons.mp ordered
    apply pairwise_orderedInsert (ih others)
    · intro b member atMost
      have index := first b ((mem_insertionSort _).mp member)
      exact atMost.lt_or_eq.imp id fun same => ⟨same.symm, index⟩
    · exact fun b _ above => .inl (lt_of_not_ge above)

/-- No entry is smaller if the last one is not. -/
theorem not_smaller (sorted : (list ++ [b]).Pairwise Precedes) (last : ¬ b.2 < e.2) :
    ∀ c ∈ list ++ [b], ¬ c.2 < e.2 := by
  intro c member
  rcases mem_append.mp member with front | here
  · exact fun less => last (((pairwise_append.mp sorted).2.2 c front b mem_cons_self).elim
      less.trans' fun same => same.1 ▸ less)
  · rw [mem_singleton.mp here]
    exact last

/-- The place of a new entry is found from the end. -/
theorem orderedInsert_reverse (sorted : list.Pairwise Precedes) :
    (list.reverse.dropWhile (fun b => b.2 < e.2)).reverse ++ [e] ++
        (list.reverse.takeWhile (fun b => b.2 < e.2)).reverse =
      list.orderedInsert (fun e b => b.2 < e.2) e := by
  induction list using List.reverseRecOn with
  | nil => rfl
  | append_singleton list b ih =>
    rw [reverse_concat, dropWhile_cons, takeWhile_cons]
    by_cases smaller : b.2 < e.2
    · rw [@orderedInsert_concat _ (fun e b => b.2 < e.2) _ e b smaller, ← ih (pairwise_append.mp sorted).1]
      simp [smaller]
    · rw [orderedInsert_last (not_smaller sorted smaller)]
      simp [smaller]

/-- One turn: the first entries of the sorted part with the new one. -/
theorem insertTop_take (positive : k ≠ 0) (sorted : list.Pairwise Precedes) :
    insertTop k (list.take k) e.1 e.2 = (list.orderedInsert (fun e b => b.2 < e.2) e).take k := by
  have part := sorted.sublist (take_sublist k list)
  have short : (list.take k).length ≤ k := length_take_le k list
  rw [← take_orderedInsert]
  generalize list.take k = out at part short ⊢
  unfold insertTop
  split
  · rename_i full
    rcases eq_nil_or_concat' out with rfl | ⟨front, last, rfl⟩
    · exact (positive full.1.symm).elim
    · rw [getLastD_concat] at full
      rw [orderedInsert_last (not_smaller part full.2), take_left' full.1]
  · have length := orderedInsert_length (fun e b : Nat × WithBot K => b.2 < e.2) out e
    rw [span_eq_takeWhile_dropWhile]
    dsimp only
    rw [orderedInsert_reverse part]
    split
    · rw [dropLast_eq_take, length]
      congr 1
      omega
    · rw [take_of_length_le (by omega)]

/-- Behind a part of the row the buffer holds the first entries of the part, sorted. -/
theorem foldl_insertTop (positive : k ≠ 0) (ordered : list.Pairwise (fun a b => a.1 < b.1)) :
    list.foldl (fun out e => insertTop k out e.1 e.2) [] =
      (list.insertionSort (fun a b => b.2 ≤ a.2)).take k := by
  induction list using List.reverseRecOn with
  | nil => rw [foldl_nil, insertionSort_nil, take_nil]
  | append_singleton list e ih =>
    obtain ⟨front, _, last⟩ := pairwise_append.mp ordered
    have sorted := pairwise_insertionSort front
    rw [foldl_append, ih front, foldl_cons, foldl_nil, insertTop_take positive sorted]
    congr 1
    have inserted := @pairwise_orderedInsert K _ e _ (fun e b => b.2 < e.2) _ sorted
      (fun _ _ less => .inl less) (fun b member above => by
        have index := last b ((mem_insertionSort _).mp member) e mem_cons_self
        exact (le_of_not_gt above).lt_or_eq.imp id fun same => ⟨same.symm, index⟩)
    refine List.Perm.eq_of_pairwise (fun a b _ _ first second => (first.asymm second).elim) inserted
      (pairwise_insertionSort ordered) ?_
    exact ((perm_orderedInsert _ _ _).trans ((perm_insertionSort _ _).cons e)).trans
      ((perm_append_singleton e list).symm.trans (perm_insertionSort _ _).symm)

omit [LinearOrder K] in
theorem entries_ordered (row : List (WithBot K)) : (entries row).Pairwise (fun a b => a.1 < b.1) := by
  have indices : (entries row).map Prod.fst = List.range row.length := by
    rw [entries, map_map, range_eq_range']
    exact zipIdx_map_snd 0 row
  rw [← pairwise_map, indices]
  exact pairwise_lt_range

/-- `top_k` returns the first entries of the stable sort by descending value. -/
theorem topK_eq_take (row : List (WithBot K)) (k : Nat) :
    topK row k = ((entries row).insertionSort (fun a b => b.2 ≤ a.2)).take k ∧
      (topK row k).length = min k row.length ∧ (topK row k).Pairwise Precedes ∧
      ∀ a ∈ topK row k, ∀ b ∈ entries row, b ∉ topK row k → Precedes a b := by
  have shape : topK row k = ((entries row).insertionSort (fun a b => b.2 ≤ a.2)).take k := by
    unfold topK
    split
    · rename_i none
      rw [none, take_zero]
    · rename_i positive
      rw [← foldl_insertTop positive (entries_ordered row), entries, foldl_map]
      rfl
  have sorted := pairwise_insertionSort (entries_ordered row)
  have perm := perm_insertionSort (fun a b => b.2 ≤ a.2) (entries row)
  rw [shape]
  generalize (entries row).insertionSort (fun a b => b.2 ≤ a.2) = ranked at sorted perm ⊢
  refine ⟨rfl, ?_, sorted.sublist (take_sublist _ _), ?_⟩
  · rw [length_take, perm.length_eq, entries, length_map, length_zipIdx]
  intro a first b member omitted
  rw [← perm.mem_iff, ← take_append_drop k ranked, mem_append] at member
  rw [← take_append_drop k ranked, pairwise_append] at sorted
  exact sorted.2.2 a first b (member.resolve_left omitted)

end Iian.Vec
