import Mathlib.Data.List.Basic
import Mathlib.Data.List.Flatten
import Mathlib.Data.List.Induction
import Mathlib.Data.List.Perm.Basic

/- Sorting by buckets in an array: the items are counted, running sums of the counts say where
each bucket starts, the items are scattered to their buckets, and each bucket is sorted in its
place. The result is the sorted list, if items of a later bucket come later in the order. -/
namespace Iian.Lib.CountingSort

open List

variable {α : Type}

/-- One more for the bucket of each item, at the place behind the bucket's own. -/
def tally (n : Nat) (bucket : α → Nat) (items : List α) : List Nat :=
  items.foldl (fun counts item => counts.modify (bucket item + 1) (· + 1))
    (List.replicate (n + 1) 0)

/-- Running sums in place. -/
def accumulate (n : Nat) (counts : List Nat) : List Nat :=
  (List.range n).foldl (fun counts b => counts.modify (b + 1) (· + counts.getD b 0)) counts

/-- Each item goes to the next free place of its bucket. -/
def scatter (bucket : α → Nat) : List Nat → List α → List α → List α
  | _, sorted, [] => sorted
  | pos, sorted, item :: items =>
    scatter bucket (pos.modify (bucket item) (· + 1))
      (sorted.set (pos.getD (bucket item) 0) item) items

/-- The items from `start` up to `stop` are sorted in their place. -/
def sortPart (sort : List α → List α) (items : List α) (start stop : Nat) : List α :=
  items.take start ++ sort ((items.drop start).take (stop - start)) ++ items.drop stop

/-- Each bucket with more than one item is sorted; `counts` says where they start. -/
def sortBuckets (n : Nat) (sort : List α → List α) (counts : List Nat) (sorted : List α) :
    List α :=
  (List.range n).foldl (fun sorted b =>
    if counts.getD (b + 1) 0 - counts.getD b 0 > 1 then
      sortPart sort sorted (counts.getD b 0) (counts.getD (b + 1) 0)
    else sorted) sorted

def bucketSort [Inhabited α] (n : Nat) (bucket : α → Nat) (sort : List α → List α)
    (items : List α) : List α :=
  let counts := accumulate n (tally n bucket items)
  let sorted := scatter bucket counts.dropLast (List.replicate items.length default) items
  sortBuckets n sort counts sorted

variable {n : Nat} {segment : Nat → List α} {items : List α}

section Segments

/-- A list of consecutive segments is split at one of them. -/
theorem flatMap_range_split {k : Nat} (inside : k < n) (segment : Nat → List α) :
    (List.range n).flatMap segment = (List.range k).flatMap segment ++
      (segment k ++ (List.range' (k + 1) (n - (k + 1))).flatMap segment) := by
  have split : List.range n = List.range k ++ List.range' k (n - k) := by
    have joined := @range'_append_1 0 k (n - k)
    rw [Nat.zero_add, Nat.add_sub_of_le (Nat.le_of_lt inside)] at joined
    rw [range_eq_range', range_eq_range', joined]
  rw [split, flatMap_append, show n - k = n - (k + 1) + 1 by omega, range'_succ, flatMap_cons]

theorem set_flatMap_range {k index : Nat} (inside : k < n) (small : index < (segment k).length)
    (item : α) :
    ((List.range n).flatMap segment).set (((List.range k).flatMap segment).length + index) item =
      (List.range n).flatMap (Function.update segment k ((segment k).set index item)) := by
  have before : (List.range k).flatMap (Function.update segment k ((segment k).set index item)) =
      (List.range k).flatMap segment := by
    apply flatMap_congr
    intro b member
    rw [Function.update_of_ne]
    exact Nat.ne_of_lt (mem_range.mp member)
  have after : (List.range' (k + 1) (n - (k + 1))).flatMap
      (Function.update segment k ((segment k).set index item)) =
      (List.range' (k + 1) (n - (k + 1))).flatMap segment := by
    apply flatMap_congr
    intro b member
    rw [Function.update_of_ne]
    have := (mem_range'_1.mp member).1
    omega
  rw [flatMap_range_split inside, flatMap_range_split inside, before, after, Function.update_self,
    set_append_right _ _ (Nat.le_add_right _ _), Nat.add_sub_cancel_left,
    set_append_left _ _ small]

end Segments

section Counts

variable {bucket : α → Nat}

theorem countP_lt_succ (items : List α) (b : Nat) :
    items.countP (fun item => bucket item < b + 1) =
      items.countP (fun item => bucket item < b) + items.countP (fun item => bucket item = b) := by
  induction items with
  | nil => rfl
  | cons item items ih =>
    simp only [countP_cons, ih, decide_eq_true_eq]
    split <;> split <;> split <;> omega

theorem getD_modify {counts : List Nat} (f : Nat → Nat) {place : Nat} (index : Nat)
    (inside : place < counts.length) :
    (counts.modify place f).getD index 0 =
      if place = index then f (counts.getD index 0) else counts.getD index 0 := by
  rw [getD_eq_getElem?_getD, getD_eq_getElem?_getD, getElem?_modify]
  by_cases same : place = index
  · subst same
    simp [inside]
  · simp [same]

/-- Behind its bucket's place stands the number of the bucket's items. -/
theorem tally_spec (bounds : ∀ item ∈ items, bucket item < n) :
    (tally n bucket items).length = n + 1 ∧ (tally n bucket items).getD 0 0 = 0 ∧
      ∀ b, (tally n bucket items).getD (b + 1) 0 = items.countP (fun item => bucket item = b) := by
  induction items using List.reverseRecOn with
  | nil =>
    have blank : ∀ b, (List.replicate (n + 1) 0).getD b 0 = 0 := by
      intro b
      rw [getD_eq_getElem?_getD, getElem?_replicate]
      split <;> rfl
    exact ⟨length_replicate, blank 0, fun b => blank (b + 1)⟩
  | append_singleton items item ih =>
    have small : bucket item < n := bounds item (by simp)
    obtain ⟨length, first, counted⟩ :=
      ih (fun item member => bounds item (mem_append_left _ member))
    have step : tally n bucket (items ++ [item]) =
        (tally n bucket items).modify (bucket item + 1) (· + 1) := by simp [tally]
    rw [step]
    refine ⟨by simpa using length, ?_, ?_⟩
    · rw [getD_modify _ _ (by omega), if_neg (by omega), first]
    · intro b
      rw [getD_modify _ _ (by omega), counted, countP_append, countP_singleton]
      by_cases here : bucket item = b <;> simp [here]

/-- The running sums say where each bucket starts. -/
theorem accumulate_spec (bounds : ∀ item ∈ items, bucket item < n) :
    (accumulate n (tally n bucket items)).length = n + 1 ∧
      ∀ b ≤ n, (accumulate n (tally n bucket items)).getD b 0 =
        items.countP (fun item => bucket item < b) := by
  obtain ⟨length, first, counted⟩ := tally_spec bounds
  -- behind `k` turns the sums are final up to place `k`, and the counts stand behind it
  have loop : ∀ k ≤ n, (accumulate k (tally n bucket items)).length = n + 1 ∧
      (∀ b ≤ k, (accumulate k (tally n bucket items)).getD b 0 =
        items.countP (fun item => bucket item < b)) ∧
      ∀ b, k ≤ b → (accumulate k (tally n bucket items)).getD (b + 1) 0 =
        items.countP (fun item => bucket item = b) := by
    intro k
    induction k with
    | zero =>
      intro _
      refine ⟨length, ?_, fun b _ => counted b⟩
      intro b none
      rw [Nat.le_zero.mp none]
      simpa [accumulate] using first
    | succ k ih =>
      intro inside
      obtain ⟨kept, sums, rest⟩ := ih (by omega)
      have step : accumulate (k + 1) (tally n bucket items) =
          (accumulate k (tally n bucket items)).modify (k + 1)
            (· + (accumulate k (tally n bucket items)).getD k 0) := by
        simp [accumulate, range_succ]
      rw [step]
      refine ⟨by simpa using kept, ?_, ?_⟩
      · intro b upTo
        rw [getD_modify _ _ (by omega)]
        by_cases last : k + 1 = b
        · subst last
          rw [if_pos rfl, rest k (Nat.le_refl k), sums k (Nat.le_refl k), countP_lt_succ]
          omega
        · rw [if_neg last, sums b (by omega)]
      · intro b above
        rw [getD_modify _ _ (by omega), if_neg (by omega), rest b (by omega)]
  obtain ⟨kept, sums, _⟩ := loop n (Nat.le_refl n)
  exact ⟨kept, sums⟩

end Counts

section Scatter

variable {bucket : α → Nat} {n : Nat} {blank : Nat → List α} {done todo sorted : List α}
    {pos : List Nat}

/-- The items of one bucket, in their order. -/
def ofBucket (bucket : α → Nat) (items : List α) (b : Nat) : List α :=
  items.filter (fun item => bucket item = b)

theorem ofBucket_length (items : List α) (b : Nat) :
    (ofBucket bucket items b).length = items.countP (fun item => bucket item = b) :=
  countP_eq_length_filter.symm

/-- Segments as long as the buckets put a bucket behind all items of smaller buckets. -/
theorem length_flatMap_range
    (sizes : ∀ b, (segment b).length = items.countP (fun item => bucket item = b)) (b : Nat) :
    ((List.range b).flatMap segment).length = items.countP (fun item => bucket item < b) := by
  induction b with
  | zero => simp
  | succ b ih =>
    rw [range_succ, flatMap_append, flatMap_singleton, length_append, ih, sizes, countP_lt_succ]

/-- The items of `done` stand in their buckets, with `blank` behind them, and `pos` has the
next free place of each bucket. -/
structure Scattering (bucket : α → Nat) (n : Nat) (done todo : List α) (blank : Nat → List α)
    (pos : List Nat) (sorted : List α) : Prop where
  room : ∀ b, (blank b).length = todo.countP (fun item => bucket item = b)
  layout : sorted = (List.range n).flatMap (fun b => ofBucket bucket done b ++ blank b)
  length : pos.length = n
  next : ∀ b < n, pos.getD b 0 = (done ++ todo).countP (fun item => bucket item < b) +
    done.countP (fun item => bucket item = b)

theorem Scattering.step {item : α} (inv : Scattering bucket n done (item :: todo) blank pos sorted)
    (inside : bucket item < n) :
    ∃ rest, Scattering bucket n (done ++ [item]) todo rest (pos.modify (bucket item) (· + 1))
      (sorted.set (pos.getD (bucket item) 0) item) := by
  have sizes : ∀ b, (ofBucket bucket done b ++ blank b).length =
      (done ++ item :: todo).countP (fun item => bucket item = b) := by
    intro b
    rw [length_append, ofBucket_length, inv.room, countP_append]
  have place : pos.getD (bucket item) 0 =
      ((List.range (bucket item)).flatMap (fun b => ofBucket bucket done b ++ blank b)).length +
        (ofBucket bucket done (bucket item)).length := by
    rw [length_flatMap_range sizes, ofBucket_length]
    exact inv.next _ inside
  have free : (blank (bucket item)).length =
      todo.countP (fun other => bucket other = bucket item) + 1 := by
    rw [inv.room, countP_cons_of_pos (by simp)]
  refine ⟨Function.update blank (bucket item) (blank (bucket item)).tail, ?_, ?_, ?_, ?_⟩
  · intro b
    by_cases here : b = bucket item
    · subst here
      rw [Function.update_self, length_tail, free, Nat.add_sub_cancel]
    · rw [Function.update_of_ne here, inv.room, countP_cons_of_neg]
      simpa using Ne.symm here
  · rw [place, inv.layout, set_flatMap_range inside]
    · apply flatMap_congr
      intro b _
      by_cases here : b = bucket item
      · subst here
        cases shape : blank (bucket item) with
        | nil => simp [shape] at free
        | cons first rest => simp [ofBucket]
      · simp [ofBucket, Function.update_of_ne here, Ne.symm here]
    · rw [length_append, free]
      omega
  · rw [length_modify, inv.length]
  · intro b below
    rw [getD_modify _ _ (by rw [inv.length]; exact inside), inv.next b below, append_assoc,
      singleton_append]
    by_cases here : bucket item = b <;> simp [here]
    omega

theorem scatter_spec (inv : Scattering bucket n done todo blank pos sorted)
    (bounds : ∀ item ∈ todo, bucket item < n) :
    scatter bucket pos sorted todo = (List.range n).flatMap (ofBucket bucket (done ++ todo)) := by
  induction todo generalizing done blank pos sorted with
  | nil =>
    rw [scatter, inv.layout, append_nil]
    apply flatMap_congr
    intro b _
    rw [length_eq_zero_iff.mp (inv.room b), append_nil]
  | cons item todo ih =>
    obtain ⟨rest, next⟩ := inv.step (bounds item mem_cons_self)
    rw [scatter, ih next (fun other member => bounds other (mem_cons_of_mem _ member)),
      append_assoc, singleton_append]

end Scatter

section Order

variable {bucket : α → Nat} {n : Nat} {sort : List α → List α}

/-- Every item is in one of the buckets. -/
theorem flatMap_ofBucket_perm (bounds : ∀ item ∈ items, bucket item < n) :
    ((List.range n).flatMap (ofBucket bucket items)).Perm items := by
  have below : ∀ k, ((List.range k).flatMap (ofBucket bucket items)).Perm
      (items.filter (fun item => bucket item < k)) := by
    intro k
    induction k with
    | zero => simp
    | succ k ih =>
      have parts := filter_append_perm (fun item => decide (bucket item < k))
        (items.filter (fun item => bucket item < k + 1))
      rw [filter_filter, filter_filter] at parts
      rw [range_succ, flatMap_append, flatMap_singleton]
      refine (ih.append_right _).trans (List.Perm.trans (List.Perm.of_eq ?_) parts)
      unfold ofBucket
      congr 1 <;> · apply filter_congr; intro item _; rw [Bool.eq_iff_iff]; simp; omega
  have all : items.filter (fun item => bucket item < n) = items :=
    filter_eq_self.mpr (fun item member => by simpa using bounds item member)
  have final := below n
  rw [all] at final
  exact final

/-- Sorting a segment in place. -/
theorem sortPart_append (front part back : List α) :
    sortPart sort (front ++ (part ++ back)) front.length (front.length + part.length) =
      front ++ (sort part ++ back) := by
  simp [sortPart, drop_append]

section

variable (permutes : ∀ part, (sort part).Perm part)

include permutes

/-- A part of one item or none is sorted as it is. -/
theorem sort_eq_self {part : List α} (short : part.length ≤ 1) : sort part = part := by
  match part, short with
  | [], _ => exact (permutes []).eq_nil
  | [item], _ => exact perm_singleton.mp (permutes [item])

theorem sortBuckets_eq {counts : List Nat}
    (starts : ∀ b ≤ n, counts.getD b 0 = ((List.range b).flatMap segment).length) :
    sortBuckets n sort counts ((List.range n).flatMap segment) =
      (List.range n).flatMap (fun b => sort (segment b)) := by
  -- behind `k` turns the first `k` buckets are sorted and the others are as they were
  have loop : ∀ k ≤ n, sortBuckets k sort counts ((List.range n).flatMap segment) =
      (List.range k).flatMap (fun b => sort (segment b)) ++
        (List.range' k (n - k)).flatMap segment := by
    intro k
    induction k with
    | zero =>
      intro _
      simp [sortBuckets, range_eq_range']
    | succ k ih =>
      intro inside
      have front : counts.getD k 0 =
          ((List.range k).flatMap (fun b => sort (segment b))).length := by
        rw [starts k (by omega), length_flatMap, length_flatMap]
        simp [(permutes _).length_eq]
      have next : counts.getD (k + 1) 0 = counts.getD k 0 + (segment k).length := by
        rw [starts _ inside, starts k (by omega)]
        simp [range_succ]
      have step : sortBuckets (k + 1) sort counts ((List.range n).flatMap segment) =
          if counts.getD (k + 1) 0 - counts.getD k 0 > 1 then
            sortPart sort (sortBuckets k sort counts ((List.range n).flatMap segment))
              (counts.getD k 0) (counts.getD (k + 1) 0)
          else sortBuckets k sort counts ((List.range n).flatMap segment) := by
        simp [sortBuckets, range_succ]
      rw [step, ih (by omega), next, show n - k = n - (k + 1) + 1 by omega, range'_succ,
        flatMap_cons, range_succ, flatMap_append, flatMap_singleton,
        append_assoc]
      split
      · rw [front, sortPart_append]
      · rw [sort_eq_self permutes (by omega)]
  simpa using loop n (Nat.le_refl n)

/-- The array holds one sorted bucket after the other. -/
theorem bucketSort_eq [Inhabited α] (bounds : ∀ item ∈ items, bucket item < n) :
    bucketSort n bucket sort items =
      (List.range n).flatMap (fun b => sort (ofBucket bucket items b)) := by
  obtain ⟨length, starts⟩ := accumulate_spec bounds
  have start : ∀ b < n, (accumulate n (tally n bucket items)).dropLast.getD b 0 =
      items.countP (fun item => bucket item < b) := by
    intro b inside
    rw [← starts b (Nat.le_of_lt inside), getD_eq_getElem?_getD, getD_eq_getElem?_getD,
      getElem?_dropLast, if_pos (by omega)]
  have blank : List.replicate items.length default = (List.range n).flatMap (fun b =>
      List.replicate (items.countP (fun item => bucket item = b)) (default : α)) := by
    symm
    rw [eq_replicate_iff]
    constructor
    · rw [length_flatMap_range (fun b => length_replicate)]
      exact countP_eq_length.mpr (fun item member => by simpa using bounds item member)
    · simp only [mem_flatMap, mem_replicate]
      rintro _ ⟨_, _, _, rfl⟩
      rfl
  have scattered : scatter bucket (accumulate n (tally n bucket items)).dropLast
      (List.replicate items.length default) items =
      (List.range n).flatMap (ofBucket bucket items) := by
    have inv : Scattering bucket n [] items
        (fun b => List.replicate (items.countP (fun item => bucket item = b)) default)
        (accumulate n (tally n bucket items)).dropLast (List.replicate items.length default) :=
      ⟨fun b => length_replicate, by simpa [ofBucket] using blank, by simp [length],
        by simpa using start⟩
    exact scatter_spec inv bounds
  unfold bucketSort
  dsimp only
  rw [scattered]
  apply sortBuckets_eq permutes
  intro b inside
  rw [starts b inside, length_flatMap_range (ofBucket_length items)]

end

variable {r : α → α → Prop}

/-- Sorting by buckets is sorting, if the buckets respect the order. -/
theorem bucketSort_eq_sort [Inhabited α] (antisymm : ∀ a b, r a b → r b a → a = b)
    (permutes : ∀ part, (sort part).Perm part) (sorts : ∀ part, (sort part).Pairwise r)
    (bounds : ∀ item ∈ items, bucket item < n) (respects : ∀ a b, bucket a < bucket b → r a b) :
    bucketSort n bucket sort items = sort items := by
  rw [bucketSort_eq permutes bounds]
  apply List.Perm.eq_of_pairwise (fun a b _ _ => antisymm a b)
  · rw [pairwise_flatMap]
    refine ⟨fun b _ => sorts _, ?_⟩
    apply pairwise_lt_range.imp
    intro b c less first here second there
    have inFirst := (permutes _).mem_iff.mp here
    have inSecond := (permutes _).mem_iff.mp there
    simp only [ofBucket, mem_filter, decide_eq_true_eq] at inFirst inSecond
    exact respects first second (by omega)
  · exact sorts items
  · have buckets : ((List.range n).flatMap (fun b => sort (ofBucket bucket items b))).Perm
        ((List.range n).flatMap (ofBucket bucket items)) :=
      List.Perm.flatMap_left _ (fun b _ => permutes _)
    exact (buckets.trans (flatMap_ofBucket_perm bounds)).trans (permutes items).symm

end Order

end Iian.Lib.CountingSort
