import Iian.Attention
import Iian.Lib.Runs
import Mathlib.Data.List.GetD

/- The three attention paths against one description of what a query attends: the cells of its
own sequence that its position and the layer's window let it see. -/
namespace Iian

open List

namespace HParams

/-- Whether the sliding window applies to a layer: to every layer if no layer is flagged. -/
def Windowed (hp : HParams) (il : Nat) : Prop :=
  0 < hp.nSwa ∧ (hp.hasSwaLayers = true → hp.swaAt il = true)

instance (hp : HParams) (il : Nat) : Decidable (hp.Windowed il) := by
  unfold Windowed
  infer_instance

/-- A query at position `p1` may attend a cell at position `p0`. -/
def Visible (hp : HParams) (il p1 p0 : Nat) : Prop :=
  (hp.causalAttn = true → p0 ≤ p1) ∧ (hp.Windowed il → (p1 : Int) - p0 < (hp.nSwa.toNat : Int))

instance (hp : HParams) (il p1 p0 : Nat) : Decidable (hp.Visible il p1 p0) := by
  unfold Visible
  infer_instance

/-- What the paths compute instead: the window is read as a signed number. -/
def Kept (hp : HParams) (il p1 p0 : Nat) : Prop :=
  (hp.causalAttn = true → p0 ≤ p1) ∧ (hp.Windowed il → (p1 : Int) - p0 < posOf hp.nSwa)

/-- The bias of a distance is finite in half precision. -/
def Near (hp : HParams) (p1 p0 : Nat) : Prop :=
  hp.alibi = true → ((p1 : Int) - p0).natAbs < 65520

instance (hp : HParams) (p1 p0 : Nat) : Decidable (hp.Near p1 p0) := by
  unfold Near
  infer_instance

theorem kqSwa_iff (hp : HParams) (il : Nat) : hp.kqSwa il = true ↔ hp.Windowed il := by
  unfold kqSwa swaMasks Windowed
  by_cases some : 0 < hp.nSwa <;> cases hp.hasSwaLayers <;> cases hp.swaAt il <;> simp [some]

theorem gatherSwa_iff (hp : HParams) {groups : List AttnGroup} (filled : groups ≠ [])
    (il : Nat) : hp.gatherSwa groups il = true ↔ hp.Windowed il := by
  have same : hp.gatherSwa groups il = hp.kqSwa il := by
    have more : groups.isEmpty = false := by simpa using filled
    unfold gatherSwa kqSwa
    rw [more]
    simp
  rw [same, kqSwa_iff]

theorem pagedSwa_eq (hp : HParams) (il : Nat) :
    hp.pagedSwa il = if hp.Windowed il then hp.nSwa else 0 := by
  have unflagged : hp.isSwa = [] → hp.hasSwaLayers = false := by
    intro empty
    rw [hasSwaLayers, empty]
    rfl
  unfold pagedSwa
  apply if_congr _ rfl rfl
  unfold Windowed
  by_cases empty : hp.isSwa = []
  · simp [empty, unflagged empty]
  · cases hp.hasSwaLayers <;> cases hp.swaAt il <;> simp [empty]

theorem toF16_maskValue (hp : HParams) (p1 p0 : Nat) :
    (toF16 (hp.maskValue p1 p0)).isSome = true ↔ hp.Near p1 p0 := by
  unfold toF16 maskValue Near
  cases hp.alibi
  · simp
  · simp only [if_true, Int.natAbs_neg, Int.natAbs_natCast, true_implies]
    split <;> simp_all

variable {hp : HParams}

theorem posOf_eq (small : hp.nSwa.toNat < 2 ^ 31) : posOf hp.nSwa = hp.nSwa.toNat := by
  unfold posOf
  rw [BitVec.toInt_eq_toNat_of_lt (by
    change 2 * hp.nSwa.toNat < 2 ^ 32
    omega)]
  rfl

theorem posOf_neg (big : ¬ hp.nSwa.toNat < 2 ^ 31) : posOf hp.nSwa < 0 := by
  have bound : hp.nSwa.toNat < 2 ^ 32 := hp.nSwa.toNat_lt
  have value := BitVec.toInt_eq_toNat_cond hp.nSwa.toBitVec
  change posOf hp.nSwa = if 2 * hp.nSwa.toNat < 2 ^ 32 then (hp.nSwa.toNat : Int)
    else (hp.nSwa.toNat : Int) - (2 ^ 32 : Nat) at value
  rw [value, if_neg (by omega)]
  omega

theorem kept_iff {il : Nat} (small : hp.Windowed il → hp.nSwa.toNat < 2 ^ 31) (p1 p0 : Nat) :
    hp.Kept il p1 p0 ↔ hp.Visible il p1 p0 := by
  unfold Kept Visible
  by_cases windowed : hp.Windowed il
  · rw [posOf_eq (small windowed)]
  · simp [windowed]

end HParams

theorem SeqInfo.mem_pairs {seq : SeqInfo} {keeps : Option Nat × Nat → Bool} {cell pos : Nat} :
    (cell, pos) ∈ seq.pairs keeps ↔
      seq.cells[pos]? = some (some cell) ∧ keeps (some cell, pos) = true := by
  unfold pairs entries
  rw [mem_filterMap]
  constructor
  · rintro ⟨⟨slot, place⟩, member, paired⟩
    obtain ⟨inside, kept⟩ := mem_filter.mp member
    have found := mem_zipIdx_iff_getElem?.mp inside
    cases slot with
    | none => cases paired
    | some other =>
      cases paired
      exact ⟨found, kept⟩
  · rintro ⟨found, kept⟩
    exact ⟨(some cell, pos), mem_filter.mpr ⟨mem_zipIdx_iff_getElem?.mpr found, kept⟩, rfl⟩

section Rows

variable {hp : HParams} {il p1 : Nat}

theorem causal_iff (p0 : Nat) :
    (!hp.causalAttn || decide (p0 ≤ p1)) = true ↔ (hp.causalAttn = true → p0 ≤ p1) := by
  cases hp.causalAttn <;> simp

variable {j cell p0 : Nat} {groups : List AttnGroup} {value : Option Int} {window : Window}
    {seq : SeqInfo}

theorem kqWrite_iff {f16 : Bool} :
    kqWrite hp f16 (hp.kqSwa il) window p1 (some cell, p0) = some (j, value) ↔
      hp.Kept il p1 p0 ∧ (window.kvStart ≤ cell ∧ cell < window.kvStart + window.nKv) ∧
        j = cell - window.kvStart ∧
        value = if f16 then toF16 (hp.maskValue p1 p0) else some (hp.maskValue p1 p0) := by
  have causal := @causal_iff hp p1 p0
  have swa := hp.kqSwa_iff il
  simp only [kqWrite, HParams.Kept]
  split
  · rename_i seen
    split
    · rename_i masked
      simp only [Bool.and_eq_true, decide_eq_true_eq] at masked
      refine ⟨nofun, ?_⟩
      rintro ⟨⟨_, free⟩, _⟩
      exact absurd (free (swa.mp masked.1)) (by omega)
    · rename_i unmasked
      have free : hp.Windowed il → (p1 : Int) - p0 < posOf hp.nSwa := by
        intro windowed
        by_contra late
        apply unmasked
        simp only [Bool.and_eq_true, decide_eq_true_eq]
        exact ⟨swa.mpr windowed, by omega⟩
      have kept := causal.mp seen
      split
      · rename_i outside
        simp only [Bool.or_eq_true, decide_eq_true_eq] at outside
        refine ⟨nofun, ?_⟩
        rintro ⟨_, inside, _⟩
        omega
      · rename_i inside
        simp only [Bool.or_eq_true, decide_eq_true_eq] at inside
        have column : ((cell : Int) - window.kvStart).toNat = cell - window.kvStart := by omega
        rw [Option.some.injEq, Prod.mk.injEq, column]
        constructor
        · rintro ⟨rfl, rfl⟩
          exact ⟨⟨kept, free⟩, by omega, rfl, rfl⟩
        · rintro ⟨_, _, rfl, rfl⟩
          exact ⟨rfl, rfl⟩
  · rename_i unseen
    refine ⟨nofun, ?_⟩
    rintro ⟨⟨kept, _⟩, _⟩
    exact (unseen (causal.mpr kept)).elim

theorem kqFinite_iff (f16 : Bool) (window : Window) (cell p0 : Nat) :
    kqFinite hp f16 (hp.kqSwa il) window p1 (some cell, p0) = true ↔
      hp.Kept il p1 p0 ∧ (window.kvStart ≤ cell ∧ cell < window.kvStart + window.nKv) ∧
        (f16 = true → hp.Near p1 p0) := by
  have near := hp.toF16_maskValue p1 p0
  have finite : kqFinite hp f16 (hp.kqSwa il) window p1 (some cell, p0) = true ↔
      ∃ j value, kqWrite hp f16 (hp.kqSwa il) window p1 (some cell, p0) = some (j, some value) := by
    unfold kqFinite
    split
    · rename_i j value written
      simp [written]
    · rename_i other
      simpa using other
  rw [finite]
  constructor
  · rintro ⟨j, value, written⟩
    obtain ⟨kept, inside, _, same⟩ := kqWrite_iff.mp written
    refine ⟨kept, inside, ?_⟩
    rintro rfl
    rw [← near, ← show some value = toF16 _ from same]
    rfl
  · rintro ⟨kept, inside, bias⟩
    cases f16 with
    | false => exact ⟨_, _, kqWrite_iff.mpr ⟨kept, inside, rfl, rfl⟩⟩
    | true =>
      obtain ⟨value, same⟩ := Option.isSome_iff_exists.mp (near.mpr (bias rfl))
      exact ⟨_, value, kqWrite_iff.mpr ⟨kept, inside, rfl, same.symm⟩⟩

theorem pagedKeeps_iff (slot : Option Nat) (p0 : Nat) :
    pagedKeeps hp (hp.pagedSwa il) p1 (slot, p0) = true ↔ hp.Kept il p1 p0 := by
  unfold pagedKeeps HParams.Kept
  rw [hp.pagedSwa_eq, ← causal_iff]
  by_cases windowed : hp.Windowed il
  · rw [if_pos windowed]
    have some : 0 < hp.nSwa := windowed.1
    simp [windowed, some]
  · rw [if_neg windowed]
    simp [windowed]

/-- The entries of a sequence are written to the places of their positions. -/
theorem foldl_entries (keeps : Nat → Bool) (value : Nat → Option Int) (cells : List (Option Nat))
    {row : List (Option Int)} (inside : j < row.length) :
    (cells.zipIdx.foldl (fun row entry =>
      if keeps entry.2 then row.set entry.2 (value entry.2) else row) row)[j]? =
      if j < cells.length ∧ keeps j = true then some (value j) else row[j]? := by
  induction cells using List.reverseRecOn with
  | nil => simp
  | append_singleton cells cell ih =>
    rw [zipIdx_append, foldl_append, length_append, length_singleton, zipIdx_singleton, foldl_cons,
      foldl_nil, Nat.zero_add]
    dsimp only
    by_cases here : j = cells.length
    · subst here
      rw [if_neg (by omega), getElem?_eq_getElem inside] at ih
      have long := (List.getElem?_eq_some_iff.mp ih).1
      cases kept : keeps cells.length
      · rw [if_neg (by simp), ih, if_neg (by simp), getElem?_eq_getElem inside]
      · rw [if_pos rfl, getElem?_set_self long, if_pos ⟨by omega, rfl⟩]
    · have same : j < cells.length ∧ keeps j = true ↔ j < cells.length + 1 ∧ keeps j = true :=
        and_congr_left fun _ => by omega
      rw [← if_congr same rfl rfl, ← ih]
      split
      · exact getElem?_set_ne (Ne.symm here)
      · rfl

/-- Whether `fill_gather_mask` stores a value for a position. -/
def gatherKeeps (hp : HParams) (swa : Bool) (p1 p0 : Nat) : Bool :=
  !(hp.causalAttn && decide (p0 > p1)) && !(swa && decide ((p1 : Int) - p0 ≥ posOf hp.nSwa))

theorem gatherKeeps_iff (filled : groups ≠ []) (p0 : Nat) :
    gatherKeeps hp (hp.gatherSwa groups il) p1 p0 = true ↔ hp.Kept il p1 p0 := by
  have swa := hp.gatherSwa_iff filled il
  unfold gatherKeeps HParams.Kept
  rw [← causal_iff, ← swa]
  cases hp.causalAttn <;> cases hp.gatherSwa groups il <;> simp

theorem fillGatherRow_eq (swa : Bool) (len : Nat) (seq : SeqInfo) :
    fillGatherRow hp swa len seq p1 = seq.cells.zipIdx.foldl (fun row entry =>
      if gatherKeeps hp swa p1 entry.2 then row.set entry.2 (toF16 (hp.maskValue p1 entry.2))
      else row) (List.replicate len none) := by
  unfold fillGatherRow SeqInfo.entries
  congr 1
  funext row entry
  unfold gatherKeeps
  cases hp.causalAttn && decide (entry.2 > p1)
  · cases swa && decide ((p1 : Int) - entry.2 ≥ posOf hp.nSwa) <;> rfl
  · rfl

theorem fillGatherRow_length (swa : Bool) (len : Nat) (seq : SeqInfo) :
    (fillGatherRow hp swa len seq p1).length = len := by
  refine foldlRecOn (motive := fun row => length row = len) seq.entries _ length_replicate ?_
  intro row same entry _
  split
  · exact same
  split
  · exact same
  · exact length_set.trans same

theorem fillGatherRow_finite (filled : groups ≠ []) {len : Nat} (seq : SeqInfo) (inside : j < len)
    (stored : (fillGatherRow hp (hp.gatherSwa groups il) len seq p1)[j]? = some value) :
    value.isSome = true ↔ j < seq.cells.length ∧ hp.Kept il p1 j ∧ hp.Near p1 j := by
  rw [fillGatherRow_eq, foldl_entries (gatherKeeps hp (hp.gatherSwa groups il) p1)
    (fun j => toF16 (hp.maskValue p1 j)) seq.cells (by rw [length_replicate]; exact inside)] at stored
  have keeps := @gatherKeeps_iff hp il p1 groups filled j
  split at stored
  · rename_i kept
    rw [← Option.some.inj stored, hp.toF16_maskValue]
    exact ⟨fun near => ⟨kept.1, keeps.mp kept.2, near⟩, fun facts => facts.2.2⟩
  · rename_i dropped
    rw [getElem?_replicate, if_pos inside] at stored
    rw [← Option.some.inj stored]
    simp only [Option.isSome_none, Bool.false_eq_true, false_iff]
    exact fun facts => dropped ⟨facts.1, keeps.mpr facts.2.1⟩

theorem mem_gatherPairs (filled : groups ≠ []) {len : Nat} (enough : seq.cells.length ≤ len) :
    (cell, p0) ∈ gatherPairs hp (hp.gatherSwa groups il) len seq p1 ↔
      seq.cells[p0]? = some (some cell) ∧ hp.Kept il p1 p0 ∧ hp.Near p1 p0 := by
  have size := @fillGatherRow_length hp p1 (hp.gatherSwa groups il) len seq
  have index : ∀ j < len, (gatherIdx seq len)[j]? = some
      (if j < seq.cells.length then (seq.cells.getD j none, j)
        else (seq.cells.getD 0 none, 0)) := by
    intro j inside
    rw [gatherIdx, getElem?_map, getElem?_range inside]
    rfl
  unfold gatherPairs
  rw [mem_filterMap]
  constructor
  · rintro ⟨⟨entry, value⟩, member, paired⟩
    obtain ⟨j, found⟩ := mem_iff_getElem?.mp member
    obtain ⟨idx, stored⟩ := getElem?_zip_eq_some.mp found
    have inside : j < len := by
      rw [← size]
      exact (List.getElem?_eq_some_iff.mp stored).1
    split at paired
    · rename_i finite
      obtain ⟨short, kept, near⟩ := (fillGatherRow_finite filled seq inside stored).mp finite
      rw [index j inside, if_pos short] at idx
      obtain ⟨rfl⟩ := idx
      cases slot : seq.cells.getD j none with
      | none =>
        rw [SeqInfo.pairOf, slot] at paired
        cases paired
      | some other =>
        rw [SeqInfo.pairOf, slot] at paired
        cases paired
        rw [getD_eq_getElem?_getD, getElem?_eq_getElem short, Option.getD_some] at slot
        exact ⟨by rw [getElem?_eq_getElem short, slot], kept, near⟩
    · cases paired
  · rintro ⟨found, kept, near⟩
    have short : p0 < seq.cells.length := (List.getElem?_eq_some_iff.mp found).1
    have inside : p0 < len := by omega
    obtain ⟨value, stored⟩ : ∃ value,
        (fillGatherRow hp (hp.gatherSwa groups il) len seq p1)[p0]? = some value :=
      ⟨_, getElem?_eq_getElem (by rw [size]; exact inside)⟩
    have finite := (fillGatherRow_finite filled seq inside stored).mpr ⟨short, kept, near⟩
    refine ⟨((some cell, p0), value), ?_, ?_⟩
    · apply mem_iff_getElem?.mpr
      refine ⟨p0, getElem?_zip_eq_some.mpr ⟨?_, stored⟩⟩
      rw [index p0 inside, if_pos short, getD_eq_getElem?_getD, found]
      rfl
    · rw [if_pos finite]
      rfl

/-- Writes of finite values leave finite exactly the places they go to. -/
theorem foldl_writes {writes : List (Nat × Option Int)} {row : List (Option Int)}
    (finite : ∀ write ∈ writes, write.1 < row.length ∧ write.2.isSome = true) (j : Nat) :
    (∃ value, (writes.foldl (fun row write => row.set write.1 write.2) row)[j]? =
      some (some value)) ↔
      (∃ write ∈ writes, write.1 = j) ∨ ∃ value, row[j]? = some (some value) := by
  induction writes generalizing row with
  | nil => simp
  | cons write writes ih =>
    obtain ⟨inside, some⟩ := finite write mem_cons_self
    rw [foldl_cons, ih (fun other later => by
      rw [length_set]
      exact finite other (mem_cons_of_mem _ later))]
    obtain ⟨value, stored⟩ := Option.isSome_iff_exists.mp some
    by_cases here : write.1 = j
    · subst here
      simp [inside, stored]
    · simp [here]

/-- The row of a query is finite at the columns of the cells that are kept. -/
theorem fillKqRow_finite {f16 : Bool}
    (near : ∀ p0, hp.Kept il p1 p0 → p0 < seq.cells.length → hp.Near p1 p0) (j : Nat) :
    (∃ value, (fillKqRow hp f16 (hp.kqSwa il) window seq p1)[j]? = some (some value)) ↔
      j < window.nKv ∧ ∃ p0, seq.cells[p0]? = some (some (window.kvStart + j)) ∧
        hp.Kept il p1 p0 := by
  have each : ∀ write ∈ seq.entries.filterMap (kqWrite hp f16 (hp.kqSwa il) window p1),
      ∃ cell p0, seq.cells[p0]? = some (some cell) ∧
        kqWrite hp f16 (hp.kqSwa il) window p1 (some cell, p0) = some write := by
    intro write member
    obtain ⟨⟨slot, p0⟩, inside, written⟩ := mem_filterMap.mp member
    have found := mem_zipIdx_iff_getElem?.mp inside
    cases slot with
    | none => cases written
    | some cell => exact ⟨cell, p0, found, written⟩
  unfold fillKqRow
  rw [foldl_writes]
  · constructor
    · rintro (⟨write, member, rfl⟩ | ⟨value, blank⟩)
      · obtain ⟨cell, p0, found, written⟩ := each write member
        obtain ⟨kept, inside, column, _⟩ := kqWrite_iff.mp written
        refine ⟨by omega, p0, ?_, kept⟩
        rw [found, column, show window.kvStart + (cell - window.kvStart) = cell by omega]
      · rw [getElem?_replicate] at blank
        split at blank <;> cases blank
    · rintro ⟨inside, p0, found, kept⟩
      refine .inl ⟨(j, _), mem_filterMap.mpr ⟨(some (window.kvStart + j), p0),
        mem_zipIdx_iff_getElem?.mpr found, kqWrite_iff.mpr ⟨kept, by omega, by omega, rfl⟩⟩,
        rfl⟩
  · intro write member
    obtain ⟨cell, p0, found, written⟩ := each write member
    obtain ⟨kept, inside, column, value⟩ := kqWrite_iff.mp written
    rw [length_replicate]
    refine ⟨by omega, ?_⟩
    rw [value]
    split
    · exact (hp.toF16_maskValue p1 p0).mpr (near p0 kept (List.getElem?_eq_some_iff.mp found).1)
    · rfl

end Rows

namespace Batch

/-- The sequences of a batch are runs of its tokens, in order and none empty. -/
structure Tiled (ub : Batch) (counts : List Nat) : Prop where
  positive : ∀ count ∈ counts, 0 < count
  seqs : ub.seqs.length = counts.length
  tokens : ub.tokens.map BatchToken.seqIdx = Lib.tile counts

section Groups

variable {ub : Batch} {counts : List Nat}

/-- The tokens of a batch are runs, one for each sequence that has tokens. -/
structure Runs (ub : Batch) (runs : List (Nat × Nat)) : Prop where
  keys : (runs.map Prod.fst).Nodup
  positive : ∀ run ∈ runs, 0 < run.2
  inside : ∀ run ∈ runs, run.1 < ub.seqs.length
  tokens : ub.tokens.map BatchToken.seqIdx = Lib.spread runs

theorem Tiled.runs (tiled : ub.Tiled counts) : ub.Runs (counts.zipIdx.map Prod.swap) := by
  have entry : ∀ run ∈ counts.zipIdx.map Prod.swap, counts[run.1]? = some run.2 := by
    intro run member
    obtain ⟨⟨count, s⟩, inside, rfl⟩ := mem_map.mp member
    exact mem_zipIdx_iff_getElem?.mp inside
  refine ⟨?_, ?_, ?_, ?_⟩
  · rw [map_map]
    change (counts.zipIdx.map Prod.snd).Nodup
    rw [zipIdx_map_snd]
    exact nodup_range'
  · exact fun run member => tiled.positive _ (mem_of_getElem? (entry run member))
  · intro run member
    rw [tiled.seqs]
    exact (List.getElem?_eq_some_iff.mp (entry run member)).1
  · rw [tiled.tokens, Lib.tile_eq_spread]

section Split

variable {front back : List (Nat × Nat)} {s count : Nat}

theorem Runs.seqTokens (runs : ub.Runs (front ++ (s, count) :: back)) :
    ub.seqTokens s = count := by
  rw [← Lib.spread_countP runs.keys, ← runs.tokens, countP_map]
  rfl

theorem Runs.seqStart (runs : ub.Runs (front ++ (s, count) :: back)) :
    ub.seqStart s = (Lib.spread front).length := by
  have some := runs.positive (s, count) (by simp)
  rw [← Lib.spread_findIdx runs.keys some, ← runs.tokens, findIdx_map]
  rfl

end Split

variable {runs : List (Nat × Nat)}

/-- The run at a place of the list. -/
theorem Runs.at (valid : ub.Runs runs) {m : Nat} (inside : m < runs.length) :
    ub.seqTokens runs[m].1 = runs[m].2 ∧
      ub.seqStart runs[m].1 = (Lib.spread (runs.take m)).length := by
  have split : runs = runs.take m ++ (runs[m].1, runs[m].2) :: runs.drop (m + 1) := by simp
  have parts := valid
  rw [split] at parts
  exact ⟨parts.seqTokens, parts.seqStart⟩

/-- The sequences that have tokens, in the order of their tokens. -/
theorem Runs.attnOrder (valid : ub.Runs runs) : ub.attnOrder = runs.map Prod.fst := by
  have starts : (runs.map Prod.fst).Pairwise (fun a b => ub.seqStart a < ub.seqStart b) := by
    rw [pairwise_map, pairwise_iff_getElem]
    intro m n first second before
    have some := valid.positive _ (getElem_mem first)
    have grows : Lib.spread (runs.take (m + 1)) <+: Lib.spread (runs.take n) := by
      obtain ⟨more, same⟩ := take_prefix_take_left (l := runs) before
      rw [← same, Lib.spread_append]
      exact prefix_append _ _
    have length := grows.length_le
    rw [take_succ_eq_append_getElem first, Lib.spread_append, length_append] at length
    simp only [Lib.spread_cons, Lib.spread_nil, append_nil, length_replicate] at length
    rw [(valid.at first).2, (valid.at second).2]
    omega
  have members : ((List.range ub.seqs.length).filter (fun s => 0 < ub.seqTokens s)).Perm
      (runs.map Prod.fst) := by
    rw [perm_ext_iff_of_nodup (nodup_range.filter _) valid.keys]
    intro s
    rw [mem_filter, mem_range, decide_eq_true_eq]
    constructor
    · rintro ⟨_, some⟩
      obtain ⟨token, member, same⟩ := countP_pos_iff.mp some
      apply Lib.mem_spread
      rw [← valid.tokens, ← decide_eq_true_eq.mp same]
      exact mem_map_of_mem member
    · intro member
      obtain ⟨run, listed, rfl⟩ := mem_map.mp member
      obtain ⟨m, inside, rfl⟩ := mem_iff_getElem.mp listed
      rw [(valid.at inside).1]
      exact ⟨valid.inside _ listed, valid.positive _ listed⟩
  apply List.Perm.eq_of_pairwise
  · intro a b first second low high
    have nodup : ((runs.map Prod.fst).map ub.seqStart).Nodup :=
      pairwise_map.mpr (starts.imp Nat.ne_of_lt)
    have listed := ((perm_insertionSort _ _).trans members).mem_iff.mp first
    exact inj_on_of_nodup_map nodup listed second (Nat.le_antisymm low high)
  · exact pairwise_insertionSort _ _
  · exact starts.imp (fun before => Nat.le_of_lt before)
  · exact (perm_insertionSort _ _).trans members

/-- The groups of the first sequences: their rows are the first batch tokens, in order. -/
structure Grouped (ub : Batch) (tokens : List Nat) (groups : List AttnGroup) : Prop where
  rows : groups.flatMap AttnGroup.rows = tokens.zipIdx.map (fun entry => (entry.2, entry.1))
  sizes : ∀ group ∈ groups, group.seqs.length = group.S
  lengths : ∀ group ∈ groups, ∀ s ∈ group.seqs, ub.seqLength s ≤ group.L
  ends : ∀ group ∈ groups.getLast?, group.tok0 + group.S * group.T = tokens.length

theorem rows_join (group : AttnGroup) (s len : Nat) (sized : group.seqs.length = group.S) :
    AttnGroup.rows { group with S := group.S + 1, seqs := group.seqs ++ [s], L := len } =
      group.rows ++ (List.range group.T).map (fun t =>
        (group.tok0 + group.S * group.T + t, s)) := by
  unfold AttnGroup.rows
  dsimp only
  rw [range_succ, flatMap_append, flatMap_singleton]
  congr 1
  · apply flatMap_congr
    intro si member
    rw [getD_append _ _ _ _ (by rw [sized]; exact mem_range.mp member)]
  · rw [← sized, getD_append_right _ _ _ _ (Nat.le_refl _), Nat.sub_self]
    rfl

theorem zipIdx_run (start count s : Nat) :
    ((List.replicate count s).zipIdx start).map (fun entry => (entry.2, entry.1)) =
      (List.range count).map (fun t => (start + t, s)) := by
  apply List.ext_getElem <;> simp

/-- A sequence opens a group, or joins the last one. -/
theorem joinGroup_cases (groups : List AttnGroup) (s : Nat) :
    ub.joinGroup groups s = groups ++ [{
      tok0 := ub.seqStart s, T := ub.seqTokens s, S := 1, L := ub.seqLength s, seqs := [s] }] ∨
    ∃ front last, groups = front ++ [last] ∧ last.T = ub.seqTokens s ∧
      ub.joinGroup groups s = front ++ [{ last with
        S := last.S + 1, seqs := last.seqs ++ [s], L := max last.L (ub.seqLength s) }] := by
  unfold joinGroup
  split
  · exact .inl rfl
  rename_i last found
  split
  · rename_i same
    obtain ⟨front, rfl⟩ := getLast?_eq_some_iff.mp found
    exact .inr ⟨front, last, rfl, same, by rw [dropLast_concat]⟩
  · exact .inl rfl

/-- The next sequence joins the last group or opens one; either way its rows come next. -/
theorem Grouped.join {tokens : List Nat} {groups : List AttnGroup}
    (grouped : Grouped ub tokens groups) {s : Nat} (start : ub.seqStart s = tokens.length) :
    Grouped ub (tokens ++ List.replicate (ub.seqTokens s) s) (ub.joinGroup groups s) := by
  have rows : ∀ more, more = (List.range (ub.seqTokens s)).map (fun t => (tokens.length + t, s)) →
      groups.flatMap AttnGroup.rows ++ more =
        (tokens ++ List.replicate (ub.seqTokens s) s).zipIdx.map
          (fun entry => (entry.2, entry.1)) := by
    rintro more rfl
    rw [grouped.rows, zipIdx_append, map_append, Nat.zero_add, zipIdx_run]
  rcases ub.joinGroup_cases groups s with same | ⟨front, last, rfl, same, joined⟩
  · rw [same]
    refine ⟨?_, ?_, ?_, ?_⟩
    · rw [flatMap_append, flatMap_singleton]
      apply rows
      simp [AttnGroup.rows, start]
    · exact forall_mem_append.mpr ⟨grouped.sizes, forall_mem_singleton.mpr rfl⟩
    · refine forall_mem_append.mpr ⟨grouped.lengths, forall_mem_singleton.mpr ?_⟩
      intro other inside
      rw [mem_singleton.mp inside]
    · intro group last
      rw [getLast?_concat] at last
      cases last
      simp [start]
  · have inside : last ∈ front ++ [last] := mem_append_right _ mem_cons_self
    have sized := grouped.sizes last inside
    have ends : last.tok0 + last.S * last.T = tokens.length := grouped.ends last getLast?_concat
    rw [joined]
    refine ⟨?_, ?_, ?_, ?_⟩
    · rw [flatMap_append, flatMap_singleton, rows_join last s _ sized, ← append_assoc]
      rw [flatMap_append, flatMap_singleton] at rows
      apply rows
      rw [ends, same]
    · intro group member
      rcases mem_append.mp member with old | new
      · exact grouped.sizes group (mem_append_left _ old)
      · rw [mem_singleton.mp new]
        simp [sized]
    · intro group member
      rcases mem_append.mp member with old | new
      · exact grouped.lengths group (mem_append_left _ old)
      rw [mem_singleton.mp new]
      intro other member
      rcases mem_append.mp member with before | here
      · exact Nat.le_trans (grouped.lengths last inside other before) (Nat.le_max_left _ _)
      · rw [mem_singleton.mp here]
        exact Nat.le_max_right _ _
    · intro group tail
      rw [getLast?_concat] at tail
      cases tail
      dsimp only
      rw [length_append, length_replicate, ← ends, Nat.succ_mul, same]
      omega

/-- A rule for the loop of `attn_groups`: each sequence starts behind the tokens of those
before. -/
theorem Runs.joinGroup_rule {runs : List (Nat × Nat)} (valid : ub.Runs runs)
    {holds : List Nat → List AttnGroup → Prop} (start : holds [] [])
    (step : ∀ {tokens : List Nat} {groups : List AttnGroup} {s : Nat}, holds tokens groups →
      ub.seqStart s = tokens.length → 0 < ub.seqTokens s →
      holds (tokens ++ List.replicate (ub.seqTokens s) s) (ub.joinGroup groups s)) :
    holds (ub.tokens.map BatchToken.seqIdx) (ub.attnOrder.foldl ub.joinGroup []) := by
  rw [valid.attnOrder, valid.tokens]
  have first : ∀ m ≤ runs.length, holds (Lib.spread (runs.take m))
      (((runs.take m).map Prod.fst).foldl ub.joinGroup []) := by
    intro m
    induction m with
    | zero => exact fun _ => start
    | succ m ih =>
      intro inside
      have facts := valid.at inside
      have some := valid.positive _ (getElem_mem inside)
      rw [← facts.1] at some
      have next := step (ih (by omega)) facts.2 some
      rw [facts.1] at next
      rw [take_succ_eq_append_getElem inside, Lib.spread_append, map_append, foldl_append]
      simpa using next
  have all := first runs.length (Nat.le_refl _)
  rw [take_length] at all
  exact all

/-- The groups of a batch of runs: their rows are the batch tokens, in order. -/
theorem Runs.grouped (valid : ub.Runs runs) :
    Grouped ub (ub.tokens.map BatchToken.seqIdx) (ub.attnOrder.foldl ub.joinGroup []) :=
  valid.joinGroup_rule ⟨rfl, by simp, by simp, by simp⟩ (fun grouped start _ => grouped.join start)

theorem Runs.rows (valid : ub.Runs runs) :
    ub.attnGroups.flatMap AttnGroup.rows =
      (ub.tokens.map BatchToken.seqIdx).zipIdx.map (fun entry => (entry.2, entry.1)) := by
  rw [← valid.grouped.rows, attnGroups, flatMap_map]
  rfl

/-- A row of a group is the row of a token of its own sequence, and has enough columns. -/
theorem Runs.rows_mem (valid : ub.Runs runs) {group : AttnGroup} (member : group ∈ ub.attnGroups)
    {query s : Nat} (place : (query, s) ∈ group.rows) :
    ∃ token, ub.tokens[query]? = some token ∧ token.seqIdx = s ∧ ub.seqLength s ≤ group.L := by
  have listed : (query, s) ∈ ub.attnGroups.flatMap AttnGroup.rows :=
    mem_flatMap.mpr ⟨group, member, place⟩
  rw [valid.rows] at listed
  obtain ⟨⟨other, index⟩, zipped, same⟩ := mem_map.mp listed
  obtain ⟨rfl, rfl⟩ := Prod.mk.inj same
  have own := mem_zipIdx_iff_getElem?.mp zipped
  rw [getElem?_map, Option.map_eq_some_iff] at own
  obtain ⟨token, found, same⟩ := own
  refine ⟨token, found, same, ?_⟩
  -- the sequence is one of the group, and padding only adds columns
  obtain ⟨origin, before, rfl⟩ := mem_map.mp member
  obtain ⟨si, range, turn⟩ := mem_flatMap.mp place
  obtain ⟨t, _, equal⟩ := mem_map.mp turn
  have short : si < origin.seqs.length := by
    rw [valid.grouped.sizes origin before]
    exact mem_range.mp range
  have key : origin.seqs.getD si 0 = other := congrArg Prod.snd equal
  rw [getD_eq_getElem?_getD, getElem?_eq_getElem short, Option.getD_some] at key
  have long := valid.grouped.lengths origin before other (key ▸ getElem_mem short)
  change ub.seqLength other ≤ max 256 ((origin.L + 255) / 256 * 256)
  omega

end Groups

/-- What the query of a batch token is to attend: the cells of its own sequence that are
visible from its position, with their positions. -/
def attended (hp : HParams) (ub : Batch) (il : Nat) (token : BatchToken) : List (Nat × Nat) :=
  (ub.seqOf token).pairs (fun entry => hp.Visible il token.pos entry.2)

/-- A path has one row for each batch token, in order, and its query attends what it is to. -/
def Attends (hp : HParams) (ub : Batch) (il : Nat) (rows : List (Nat × List (Nat × Nat))) : Prop :=
  rows.map Prod.fst = List.range ub.tokens.length ∧
    ∀ row ∈ rows, ∀ token, ub.tokens[row.1]? = some token →
      ∀ pair, pair ∈ row.2 ↔ pair ∈ ub.attended hp il token

/-- The three paths attend to the same cells. The mask of the window is finite at the columns
of these cells and nowhere else. -/
structure PathsAgree (hp : HParams) (f16 : Bool) (ub : Batch) (window : Window) (il : Nat) :
    Prop where
  masked : ub.Attends hp il (ub.maskedRows hp f16 window il)
  columns : ∀ token ∈ ub.tokens, ∀ j,
    (∃ value, (fillKqRow hp f16 (hp.kqSwa il) window (ub.seqOf token) token.pos)[j]? =
      some (some value)) ↔ ∃ pos, (window.kvStart + j, pos) ∈ ub.attended hp il token
  gather : ub.Attends hp il (ub.gatherRows hp il)
  paged : ub.Attends hp il (ub.pagedRows hp il)

/-- The window of a layer fits a signed number, and no bias of a visible cell overflows. -/
def Representable (hp : HParams) (ub : Batch) (il : Nat) : Prop :=
  (hp.Windowed il → hp.nSwa.toNat < 2 ^ 31) ∧
    ∀ token ∈ ub.tokens, ∀ pos < (ub.seqOf token).cells.length,
      hp.Visible il token.pos pos → hp.Near token.pos pos

/-- The window covers the cells of every sequence, and every query has a cell of its own. -/
structure Covered (ub : Batch) (window : Window) : Prop where
  filled : ub.tokens ≠ []
  cells : ∀ seq ∈ ub.seqs, ∀ slot ∈ seq.cells, ∃ cell, slot = some cell ∧
    window.kvStart ≤ cell ∧ cell < window.kvStart + window.nKv
  own : ∀ token ∈ ub.tokens, token.pos < (ub.seqOf token).cells.length

section Paths

variable {hp : HParams} {f16 : Bool} {ub : Batch} {window : Window} {il : Nat}
  {counts : List Nat}

variable {token : BatchToken} {pos : Nat} {runs : List (Nat × Nat)}

theorem mem_attended {cell : Nat} :
    (cell, pos) ∈ ub.attended hp il token ↔
      (ub.seqOf token).cells[pos]? = some (some cell) ∧ hp.Visible il token.pos pos := by
  rw [attended, SeqInfo.mem_pairs, decide_eq_true_eq]

/-- A path that goes through the batch tokens in order. -/
theorem attends_tokens (pairs : BatchToken → List (Nat × Nat))
    (each : ∀ token ∈ ub.tokens, ∀ pair, pair ∈ pairs token ↔ pair ∈ ub.attended hp il token) :
    ub.Attends hp il (ub.tokens.zipIdx.map (fun (token, query) => (query, pairs token))) := by
  refine ⟨?_, ?_⟩
  · rw [map_map]
    change ub.tokens.zipIdx.map Prod.snd = _
    rw [zipIdx_map_snd, range_eq_range']
  · intro row member token found
    obtain ⟨⟨other, query⟩, inside, rfl⟩ := mem_map.mp member
    have same := mem_zipIdx_iff_getElem?.mp inside
    have equal : token = other := Option.some.inj (found.symm.trans same)
    rw [equal]
    rw [equal] at found
    exact each other (mem_of_getElem? found)

/-- The rows of the gather path belong to the batch tokens in order. -/
theorem Runs.gatherRows_fst (valid : ub.Runs runs) :
    (ub.gatherRows hp il).map Prod.fst = List.range ub.tokens.length := by
  have fst : (ub.gatherRows hp il).map Prod.fst =
      (ub.attnGroups.flatMap AttnGroup.rows).map Prod.fst := by
    rw [gatherRows, map_flatMap, map_flatMap]
    apply flatMap_congr
    intro group _
    rw [map_map]
    rfl
  rw [fst, valid.rows, map_map]
  change (List.map BatchToken.seqIdx ub.tokens).zipIdx.map Prod.snd = _
  rw [zipIdx_map_snd, length_map, range_eq_range']

/-- Every row of the gather path is a row of the query's own sequence, of enough columns. -/
theorem Runs.gatherRows_mem (valid : ub.Runs runs) {row : Nat × List (Nat × Nat)}
    (member : row ∈ ub.gatherRows hp il) (found : ub.tokens[row.1]? = some token) :
    ub.attnGroups ≠ [] ∧ ∃ len, (ub.seqOf token).cells.length ≤ len ∧
      row.2 = gatherPairs hp (hp.gatherSwa ub.attnGroups il) len (ub.seqOf token) token.pos := by
  obtain ⟨group, inside, last⟩ := mem_flatMap.mp member
  obtain ⟨⟨query, s⟩, place, rfl⟩ := mem_map.mp last
  obtain ⟨other, here, rfl, long⟩ := valid.rows_mem inside place
  dsimp only at found ⊢
  rw [found] at here
  cases here
  have pos : ub.posAt query = token.pos := by
    rw [posAt, getD_eq_getElem?_getD, found]
    rfl
  refine ⟨ne_nil_of_mem inside, group.L, long, ?_⟩
  rw [pos]
  rfl

theorem Runs.attends_gather (valid : ub.Runs runs)
    (each : ∀ token ∈ ub.tokens, ∀ cell pos, (ub.seqOf token).cells[pos]? = some (some cell) →
      (hp.Kept il token.pos pos ∧ hp.Near token.pos pos ↔ hp.Visible il token.pos pos)) :
    ub.Attends hp il (ub.gatherRows hp il) := by
  refine ⟨valid.gatherRows_fst, ?_⟩
  rintro row member token found ⟨cell, pos⟩
  obtain ⟨filled, len, enough, same⟩ := valid.gatherRows_mem member found
  rw [same, mem_gatherPairs filled enough, mem_attended]
  apply and_congr_right
  exact each token (mem_of_getElem? found) cell pos

variable (covered : ub.Covered window)

include covered

theorem Covered.slot (short : pos < (ub.seqOf token).cells.length) :
    ∃ cell, (ub.seqOf token).cells[pos]? = some (some cell) ∧
      window.kvStart ≤ cell ∧ cell < window.kvStart + window.nKv := by
  have listed : ub.seqOf token ∈ ub.seqs := by
    rcases Nat.lt_or_ge token.seqIdx ub.seqs.length with inside | outside
    · rw [seqOf, getD_eq_getElem?_getD, getElem?_eq_getElem inside]
      exact getElem_mem inside
    · rw [seqOf, getD_eq_default _ _ outside] at short
      cases short
  obtain ⟨cell, same, range⟩ := covered.cells _ listed _ (getElem_mem short)
  exact ⟨cell, by rw [getElem?_eq_getElem short, same], range⟩

theorem Covered.inside {cell : Nat} (found : (ub.seqOf token).cells[pos]? = some (some cell)) :
    window.kvStart ≤ cell ∧ cell < window.kvStart + window.nKv := by
  obtain ⟨other, same, range⟩ := covered.slot (List.getElem?_eq_some_iff.mp found).1
  rw [Option.some.inj (Option.some.inj (found.symm.trans same))]
  exact range

/-- A path that attends what it is to attends every visible position. -/
theorem Covered.seen {rows : List (Nat × List (Nat × Nat))} (attends : ub.Attends hp il rows)
    (member : token ∈ ub.tokens) (short : pos < (ub.seqOf token).cells.length)
    (visible : hp.Visible il token.pos pos) :
    ∃ row ∈ rows, ub.tokens[row.1]? = some token ∧ ∃ cell, (cell, pos) ∈ row.2 := by
  obtain ⟨query, found⟩ := mem_iff_getElem?.mp member
  have range : query ∈ rows.map Prod.fst := by
    rw [attends.1, mem_range]
    exact (List.getElem?_eq_some_iff.mp found).1
  obtain ⟨row, listed, rfl⟩ := mem_map.mp range
  obtain ⟨cell, slot, _⟩ := covered.slot short
  exact ⟨row, listed, found, cell,
    (attends.2 row listed token found _).mpr (mem_attended.mpr ⟨slot, visible⟩)⟩

/-- The paths agree exactly when the window and the biases fit their types. -/
theorem Covered.agree_iff (tiled : ub.Tiled counts) :
    ub.PathsAgree hp f16 window il ↔ ub.Representable hp il := by
  constructor
  · intro agree
    refine ⟨?_, ?_⟩
    · -- a window that reads as a negative number hides the own cell of every query
      intro windowed
      by_contra big
      have negative := HParams.posOf_neg big
      obtain ⟨token, member⟩ := exists_mem_of_ne_nil _ covered.filled
      obtain ⟨row, listed, found, cell, seen⟩ := covered.seen agree.gather member
        (covered.own token member) ⟨fun _ => Nat.le_refl _, fun _ => by omega⟩
      obtain ⟨filled, len, enough, same⟩ := tiled.runs.gatherRows_mem listed found
      rw [same, mem_gatherPairs filled enough] at seen
      have distance := seen.2.1.2 windowed
      omega
    · intro token member pos short visible
      obtain ⟨row, listed, found, cell, seen⟩ := covered.seen agree.gather member short visible
      obtain ⟨filled, len, enough, same⟩ := tiled.runs.gatherRows_mem listed found
      rw [same, mem_gatherPairs filled enough] at seen
      exact seen.2.2
  · rintro ⟨small, near⟩
    have kept := HParams.kept_iff small
    have visible : ∀ token ∈ ub.tokens, ∀ cell pos,
        (ub.seqOf token).cells[pos]? = some (some cell) →
        (hp.Kept il token.pos pos ∧ hp.Near token.pos pos ↔ hp.Visible il token.pos pos) := by
      intro token member cell pos found
      rw [kept]
      exact ⟨fun facts => facts.1, fun seen => ⟨seen, near token member pos
        (List.getElem?_eq_some_iff.mp found).1 seen⟩⟩
    refine ⟨attends_tokens (fun token =>
        (ub.seqOf token).pairs (kqFinite hp f16 (hp.kqSwa il) window token.pos)) ?_, ?_,
      tiled.runs.attends_gather visible, attends_tokens (fun token =>
        (ub.seqOf token).pairs (pagedKeeps hp (hp.pagedSwa il) token.pos)) ?_⟩
    · rintro token member ⟨cell, pos⟩
      rw [SeqInfo.mem_pairs, mem_attended]
      apply and_congr_right
      intro found
      rw [kqFinite_iff, ← visible token member cell pos found]
      have range := covered.inside found
      have close := visible token member cell pos found
      exact ⟨fun facts => close.mpr ((kept _ _).mp facts.1),
        fun facts => ⟨facts.1, range, fun _ => facts.2⟩⟩
    · intro token member j
      rw [fillKqRow_finite (fun p0 keeps short => near token member p0 short ((kept _ _).mp keeps))]
      constructor
      · rintro ⟨_, pos, found, keeps⟩
        exact ⟨pos, mem_attended.mpr ⟨found, (kept _ _).mp keeps⟩⟩
      rintro ⟨pos, seen⟩
      obtain ⟨found, sees⟩ := mem_attended.mp seen
      have range := covered.inside found
      exact ⟨by omega, pos, found, (kept _ _).mpr sees⟩
    · rintro token member ⟨cell, pos⟩
      rw [SeqInfo.mem_pairs, mem_attended, pagedKeeps_iff, kept]

end Paths

end Batch

end Iian
