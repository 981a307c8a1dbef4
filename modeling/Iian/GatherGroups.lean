import Iian.AttentionPaths

/- The groups of `attn_groups` partition a batch whose sequences are contiguous ranges of
tokens, and the flat index and mask tensors of `set_inputs` are read with the same mapping
from (group, sequence, token) that the queries and the outputs of `build_attn_gather` use.
Sizes are natural numbers. -/
namespace Iian

open List

namespace AttnGroup

/-- The groups lie one behind the other, from batch token `first` up to `last`. -/
def Consecutive : Nat → List AttnGroup → Nat → Prop
  | first, [], last => first = last
  | first, group :: groups, last => group.tok0 = first ∧ 0 < group.T ∧ 0 < group.S ∧
      Consecutive (first + group.T * group.S) groups last

variable {groups : List AttnGroup} {first last : Nat}

theorem consecutive_concat {group : AttnGroup} :
    Consecutive first (groups ++ [group]) last ↔
      Consecutive first groups group.tok0 ∧ 0 < group.T ∧ 0 < group.S ∧
        group.tok0 + group.T * group.S = last := by
  induction groups generalizing first with
  | nil =>
    simp only [nil_append, Consecutive]
    constructor
    · rintro ⟨rfl, tokens, seqs, ends⟩
      exact ⟨rfl, tokens, seqs, ends⟩
    · rintro ⟨rfl, tokens, seqs, ends⟩
      exact ⟨rfl, tokens, seqs, ends⟩
  | cons other groups ih =>
    simp only [cons_append, Consecutive, ih]
    simp only [and_assoc]

section

variable {α : Type} (consecutive : Consecutive first groups last) {columns : AttnGroup → List α}
  (widths : ∀ group, (columns group).length = group.T * group.S)
include consecutive widths

/-- Column `i` of the concatenation belongs to the group whose range has it. -/
theorem Consecutive.getElem? {i : Nat} (low : first ≤ i) (high : i < last) :
    ∃ group ∈ groups, ∃ column < group.T * group.S, i = group.tok0 + column ∧
      (groups.flatMap columns)[i - first]? = (columns group)[column]? := by
  induction groups generalizing first with
  | nil =>
    have same : first = last := consecutive
    omega
  | cons group groups ih =>
    obtain ⟨start, _, _, rest⟩ := consecutive
    rw [flatMap_cons]
    by_cases inside : i < first + group.T * group.S
    · refine ⟨group, mem_cons_self, i - first, by omega, by omega, ?_⟩
      rw [getElem?_append_left (by rw [widths]; omega)]
    obtain ⟨other, member, column, range, place, found⟩ := ih rest (by omega)
    refine ⟨other, mem_cons_of_mem _ member, column, range, place, ?_⟩
    rw [getElem?_append_right (by rw [widths]; omega), widths, ← found]
    congr 1
    omega

theorem Consecutive.length : first + (groups.flatMap columns).length = last := by
  induction groups generalizing first with
  | nil => exact consecutive
  | cons group groups ih =>
    have rest := ih consecutive.2.2.2
    rw [flatMap_cons, length_append, widths]
    omega

end

end AttnGroup

namespace Batch

variable {ub : Batch}

/-- Every token belongs to a sequence of the batch, and the tokens of each sequence form one
contiguous range. -/
structure Contiguous (ub : Batch) : Prop where
  inside : ∀ token ∈ ub.tokens, token.seqIdx < ub.seqs.length
  ranges : Lib.Contiguous (ub.tokens.map BatchToken.seqIdx)

/-- The places of the tokens of a sequence in the batch, in order. -/
def places (ub : Batch) (s : Nat) : List Nat :=
  (List.range ub.tokens.length).filter (fun i => (ub.tokens.map BatchToken.seqIdx)[i]? = some s)

/-- The tensor `inp_gather_idx` of a group: `L` cells for each of its sequences. -/
def gatherIndex (ub : Batch) (group : AttnGroup) : List (Option Nat) :=
  (List.range group.S).flatMap (fun si =>
    (gatherIdx (ub.seqs.getD (group.seqs.getD si 0) {}) group.L).map Prod.fst)

/-- The tensor `inp_gmask` of a group: `L` entries for each of its tokens. -/
def gatherMask (hp : HParams) (swa : Bool) (ub : Batch) (group : AttnGroup) :
    List (Option Int) :=
  (List.range group.S).flatMap (fun si => (List.range group.T).flatMap (fun t =>
    fillGatherRow hp swa group.L (ub.seqs.getD (group.seqs.getD si 0) {})
      (ub.posAt (group.tok0 + si * group.T + t))))

/-- What one column of the output of a group is computed from: the query, the cells and the
mask row. The queries are a view of the batch from `tok0` on; as tensors of shape `[T, S]`
query, mask and output have token `t` of sequence `s` in column `s * T + t`, and the cells of
sequence `s` are block `s`. -/
def gatherColumn (hp : HParams) (swa : Bool) (ub : Batch) (group : AttnGroup) (column : Nat) :
    Nat × List (Option Nat) × List (Option Int) :=
  (group.tok0 + column,
    ((ub.gatherIndex group).drop (column / group.T * group.L)).take group.L,
    ((ub.gatherMask hp swa group).drop (column * group.L)).take group.L)

/-- The columns of the groups' outputs, concatenated. -/
def gatherColumns (hp : HParams) (swa : Bool) (ub : Batch) :
    List (Nat × List (Option Nat) × List (Option Int)) :=
  ub.attnGroups.flatMap (fun group =>
    (List.range (group.T * group.S)).map (ub.gatherColumn hp swa group))

/-- What the groups of a batch are to satisfy. -/
structure Partitioned (ub : Batch) (groups : List AttnGroup) : Prop where
  ranges : AttnGroup.Consecutive 0 groups ub.tokens.length
  sizes : ∀ group ∈ groups, group.seqs.length = group.S
  tokens : ∀ group ∈ groups, ∀ s t, s < group.S → t < group.T →
    ∃ token, ub.tokens[group.tok0 + s * group.T + t]? = some token ∧
      token.seqIdx = group.seqs.getD s 0 ∧
      (ub.places (group.seqs.getD s 0))[t]? = some (group.tok0 + s * group.T + t)
  aligned : ∀ group ∈ groups, 256 ∣ group.L
  enough : ∀ group ∈ groups, ∀ s ∈ group.seqs, ub.seqLength s ≤ group.L

theorem Contiguous.runs (contiguous : ub.Contiguous) : ∃ runs, ub.Runs runs := by
  obtain ⟨runs, keys, positive, same⟩ := contiguous.ranges.runs
  refine ⟨runs, keys, positive, ?_, same.symm⟩
  intro run member
  have listed := Lib.spread_mem member (positive run member)
  rw [same] at listed
  obtain ⟨token, inside, equal⟩ := mem_map.mp listed
  rw [← equal]
  exact contiguous.inside token inside

/-- The groups of the first sequences lie one behind the other, and the sequences of a group
have as many tokens. -/
structure Packed (ub : Batch) (last : Nat) (groups : List AttnGroup) : Prop where
  ranges : AttnGroup.Consecutive 0 groups last
  counts : ∀ group ∈ groups, ∀ s ∈ group.seqs, ub.seqTokens s = group.T

variable {s : Nat} {runs : List (Nat × Nat)} {groups : List AttnGroup}

theorem Packed.join {last : Nat} (packed : Packed ub last groups) (start : ub.seqStart s = last)
    (some : 0 < ub.seqTokens s) :
    Packed ub (last + ub.seqTokens s) (ub.joinGroup groups s) := by
  rcases ub.joinGroup_cases groups s with opened | ⟨front, group, rfl, same, joined⟩
  · rw [opened]
    constructor
    · rw [AttnGroup.consecutive_concat]
      dsimp only
      rw [start, Nat.mul_one]
      exact ⟨packed.ranges, some, Nat.one_pos, rfl⟩
    · intro group member
      rcases mem_append.mp member with old | new
      · exact packed.counts group old
      · simp [mem_singleton.mp new]
  · rw [joined]
    have ranges := packed.ranges
    rw [AttnGroup.consecutive_concat] at ranges
    constructor
    · rw [AttnGroup.consecutive_concat]
      refine ⟨ranges.1, ranges.2.1, Nat.succ_pos _, ?_⟩
      dsimp only
      rw [← ranges.2.2.2, ← same, Nat.mul_succ, Nat.add_assoc]
    · intro other member
      rcases mem_append.mp member with old | new
      · exact packed.counts other (mem_append_left _ old)
      · rw [mem_singleton.mp new]
        refine forall_mem_append.mpr ⟨packed.counts group (by simp), forall_mem_singleton.mpr ?_⟩
        rw [same]

theorem Runs.packed (valid : ub.Runs runs) :
    Packed ub ub.tokens.length (ub.attnOrder.foldl ub.joinGroup []) := by
  have all := @Runs.joinGroup_rule _ _ valid (fun tokens groups => Packed ub tokens.length groups)
    ⟨rfl, by simp⟩ (by
      intro tokens groups s packed start some
      rw [length_append, length_replicate]
      exact packed.join start some)
  rw [length_map] at all
  exact all

theorem consecutive_align {first last : Nat} :
    AttnGroup.Consecutive first (groups.map AttnGroup.align) last ↔
      AttnGroup.Consecutive first groups last := by
  induction groups generalizing first with
  | nil => rfl
  | cons group groups ih =>
    rw [map_cons, AttnGroup.Consecutive, AttnGroup.Consecutive, ih]
    rfl

theorem mem_places {i : Nat} :
    i ∈ ub.places s ↔ ∃ token, ub.tokens[i]? = some token ∧ token.seqIdx = s := by
  simp only [places, mem_filter, mem_range, decide_eq_true_eq, getElem?_map, Option.map_eq_some_iff]
  constructor
  · exact fun facts => facts.2
  · rintro ⟨token, found, own⟩
    exact ⟨(List.getElem?_eq_some_iff.mp found).1, token, found, own⟩

/-- The places of a sequence are the range from its first token on. -/
theorem Runs.places (valid : ub.Runs runs) (some : 0 < ub.seqTokens s) :
    ub.places s = List.range' (ub.seqStart s) (ub.seqTokens s) := by
  obtain ⟨token, member, same⟩ := countP_pos_iff.mp some
  have listed : s ∈ runs.map Prod.fst := by
    apply Lib.mem_spread
    rw [← valid.tokens, ← decide_eq_true_eq.mp same]
    exact mem_map_of_mem member
  obtain ⟨⟨key, count⟩, inside, rfl⟩ := mem_map.mp listed
  obtain ⟨front, back, rfl⟩ := append_of_mem inside
  have length : ub.tokens.length = (Lib.spread (front ++ (key, count) :: back)).length := by
    rw [← valid.tokens, length_map]
  rw [valid.seqTokens, valid.seqStart, Batch.places, valid.tokens, length]
  exact Lib.spread_places valid.keys

theorem Runs.partitioned (valid : ub.Runs runs) : ub.Partitioned ub.attnGroups := by
  have grouped := valid.grouped
  have packed := valid.packed
  have sizes : ∀ group ∈ ub.attnGroups, group.seqs.length = group.S := by
    intro group member
    obtain ⟨origin, before, rfl⟩ := mem_map.mp member
    exact grouped.sizes origin before
  refine ⟨consecutive_align.mpr packed.ranges, sizes, ?_, ?_, ?_⟩
  · intro group member s t inside short
    have row : ∀ {t}, t < group.T →
        (group.tok0 + s * group.T + t, group.seqs.getD s 0) ∈ group.rows := by
      intro t short
      exact mem_flatMap.mpr ⟨s, mem_range.mpr inside, mem_map.mpr ⟨t, mem_range.mpr short, rfl⟩⟩
    have listed : ∀ {t}, t < group.T →
        group.tok0 + s * group.T + t ∈ ub.places (group.seqs.getD s 0) := by
      intro t short
      obtain ⟨token, found, own, _⟩ := valid.rows_mem member (row short)
      exact mem_places.mpr ⟨token, found, own⟩
    have count : ub.seqTokens (group.seqs.getD s 0) = group.T := by
      obtain ⟨origin, before, rfl⟩ := mem_map.mp member
      apply packed.counts origin before
      rw [getD_eq_getElem _ _ (by rw [sizes _ member]; exact inside)]
      exact getElem_mem _
    -- the last place of the sequence fixes where it starts
    have places := valid.places (show 0 < ub.seqTokens (group.seqs.getD s 0) by omega)
    have first := @listed 0 (by omega)
    have last := @listed (group.T - 1) (by omega)
    rw [places, count, mem_range'_1] at first last
    obtain ⟨token, found, own, _⟩ := valid.rows_mem member (row short)
    refine ⟨token, found, own, ?_⟩
    rw [places, count, getElem?_range' short]
    congr 1
    omega
  · intro group member
    obtain ⟨origin, _, rfl⟩ := mem_map.mp member
    change 256 ∣ max 256 ((origin.L + 255) / 256 * 256)
    omega
  · intro group member s inside
    obtain ⟨origin, before, rfl⟩ := mem_map.mp member
    have long := grouped.lengths origin before s inside
    change ub.seqLength s ≤ max 256 ((origin.L + 255) / 256 * 256)
    omega

section Columns

variable {hp : HParams} {swa : Bool} {group : AttnGroup}

/-- The cells that the columns of a sequence read. -/
theorem gatherIndex_block {si : Nat} (inside : si < group.S) :
    ((ub.gatherIndex group).drop (si * group.L)).take group.L =
      (gatherIdx (ub.seqs.getD (group.seqs.getD si 0) {}) group.L).map Prod.fst := by
  apply Lib.block_flatMap _ inside
  simp [gatherIdx]

/-- The mask row that a column reads. -/
theorem gatherMask_row {si t : Nat} (inside : si < group.S) (short : t < group.T) :
    ((ub.gatherMask hp swa group).drop ((si * group.T + t) * group.L)).take group.L =
      fillGatherRow hp swa group.L (ub.seqs.getD (group.seqs.getD si 0) {})
        (ub.posAt (group.tok0 + si * group.T + t)) := by
  have rows : ∀ si t, (fillGatherRow hp swa group.L (ub.seqs.getD (group.seqs.getD si 0) {})
      (ub.posAt (group.tok0 + si * group.T + t))).length = group.L :=
    fun _ _ => fillGatherRow_length _ _ _
  have blocks : ∀ si, ((List.range group.T).flatMap (fun t => fillGatherRow hp swa group.L
      (ub.seqs.getD (group.seqs.getD si 0) {})
      (ub.posAt (group.tok0 + si * group.T + t)))).length = group.T * group.L := by
    intro si
    rw [length_flatMap, map_congr_left (fun t _ => rows si t)]
    simp
  have room : t * group.L + group.L ≤ group.T * group.L := by
    rw [← Nat.succ_mul]
    exact Nat.mul_le_mul_right _ short
  rw [← Lib.block_flatMap (rows si) short, ← Lib.block_flatMap blocks inside, drop_take,
    drop_drop, take_take, Nat.min_eq_left (by omega), Nat.add_mul, Nat.mul_assoc]
  rfl

/-- Every column of the concatenated outputs is computed from the query of its own batch
token and the cells and the mask of that token's own sequence. -/
structure Aligned (hp : HParams) (swa : Bool) (ub : Batch) : Prop where
  width : (ub.gatherColumns hp swa).length = ub.tokens.length
  columns : ∀ (i : Nat) token, ub.tokens[i]? = some token →
    ∃ len, (ub.seqOf token).cells.length ≤ len ∧ (ub.gatherColumns hp swa)[i]? =
      some (i, (gatherIdx (ub.seqOf token) len).map Prod.fst,
        fillGatherRow hp swa len (ub.seqOf token) token.pos)

theorem Partitioned.aligned_columns (partitioned : ub.Partitioned ub.attnGroups) :
    ub.Aligned hp swa := by
  have widths : ∀ group : AttnGroup,
      ((List.range (group.T * group.S)).map (ub.gatherColumn hp swa group)).length =
        group.T * group.S := by simp
  constructor
  · have length := partitioned.ranges.length widths
    rw [Nat.zero_add] at length
    exact length
  · intro i token found
    have inside := (List.getElem?_eq_some_iff.mp found).1
    obtain ⟨group, member, column, range, rfl, place⟩ :=
      partitioned.ranges.getElem? widths (Nat.zero_le _) inside
    have tall : 0 < group.T := Nat.pos_of_mul_pos_right (Nat.lt_of_le_of_lt (Nat.zero_le _) range)
    -- the column is token `t` of sequence `si` of the group
    obtain ⟨si, t, short, rfl⟩ : ∃ si t, t < group.T ∧ column = si * group.T + t :=
      ⟨column / group.T, column % group.T, Nat.mod_lt _ tall, (Nat.div_add_mod' _ _).symm⟩
    have listed : si < group.S := by
      by_contra outside
      have most := Nat.mul_le_mul_right group.T (Nat.le_of_not_lt outside)
      rw [Nat.mul_comm group.T] at range
      omega
    obtain ⟨other, here, own, _⟩ := partitioned.tokens group member si t listed short
    have key : group.seqs.getD si 0 ∈ group.seqs := by
      rw [getD_eq_getElem _ _ (by rw [partitioned.sizes group member]; exact listed)]
      exact getElem_mem _
    have pos : ub.posAt (group.tok0 + si * group.T + t) = other.pos := by
      rw [posAt, getD_eq_getElem?_getD, here]
      rfl
    have block : (si * group.T + t) / group.T = si := by
      rw [Nat.add_comm, Nat.add_mul_div_right _ _ tall, Nat.div_eq_of_lt short, Nat.zero_add]
    rw [← Nat.add_assoc, here] at found
    cases found
    refine ⟨group.L, ?_, ?_⟩
    · rw [seqOf, own]
      exact partitioned.enough group member _ key
    rw [Nat.sub_zero] at place
    rw [gatherColumns, place, getElem?_map, getElem?_range range, Option.map_some,
      gatherColumn, block, gatherIndex_block listed, gatherMask_row listed short, pos, ← own]
    rfl

end Columns

/-- The groups of a batch partition its tokens, and concatenating their outputs gives the row
of every batch token in its place. -/
theorem attnGroups_partition (contiguous : ub.Contiguous) :
    ub.Partitioned ub.attnGroups ∧ ∀ hp swa, ub.Aligned hp swa := by
  obtain ⟨runs, valid⟩ := contiguous.runs
  exact ⟨valid.partitioned, fun hp swa => valid.partitioned.aligned_columns⟩

/-- Two sequences of two tokens in the wrong order, then one of a single token. -/
def mixed : Batch where
  tokens := [⟨7, 0, 2, some 8⟩, ⟨8, 1, 2, some 9⟩, ⟨5, 1, 0, some 1⟩, ⟨6, 2, 0, some 2⟩,
    ⟨9, 0, 1, some 4⟩]
  seqs := [{ cells := [some 0, some 1, some 2] }, { cells := [some 4] },
    { cells := [some 8, some 9] }]

theorem mixed_contiguous : mixed.Contiguous := by
  refine ⟨by decide, ?_⟩
  intro key
  have places : ∀ i, (mixed.tokens.map BatchToken.seqIdx)[i]? = some key ↔
      (i < 2 ∧ key = 2) ∨ (2 ≤ i ∧ i < 4 ∧ key = 0) ∨ (i = 4 ∧ key = 1) := by
    intro i
    match i with
    | 0 | 1 | 2 | 3 | 4 => simp [mixed, eq_comm]
    | i + 5 => simp [mixed]
  match key with
  | 0 => exact ⟨2, 2, fun i => (places i).trans (by omega)⟩
  | 1 => exact ⟨4, 1, fun i => (places i).trans (by omega)⟩
  | 2 => exact ⟨0, 2, fun i => (places i).trans (by omega)⟩
  | key + 3 => exact ⟨0, 0, fun i => (places i).trans (by omega)⟩

theorem attnGroups_partition_mixed :
    mixed.attnGroups = [⟨0, 2, 2, 256, [2, 0]⟩, ⟨4, 1, 1, 256, [1]⟩] ∧
      mixed.Partitioned mixed.attnGroups :=
  ⟨by decide +kernel, (attnGroups_partition mixed_contiguous).1⟩

end Batch

end Iian
