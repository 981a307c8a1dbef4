import Iian.ScheduleInvariant
import Iian.Speculation

/- The batch of a step, request by request: what it writes and which rows it returns. -/
namespace Iian

open List

variable {M : Model}

namespace Batch

/-- A scheduled request with its entry in the plan. -/
abbrev Turn (M : Model) := Request M × ScheduledRequest

def seqInfo (pool : BlockPool) (turn : Turn M) : SeqInfo where
  cells := (List.range (turn.1.numComputedTokens + turn.2.nNewTokens)).map (pool.cellOf turn.1.kv)
  fed := turn.1.fed

def freshTokens (pool : BlockPool) (turn : Turn M) (seqIdx : Nat) : List BatchToken :=
  (List.range' turn.1.numComputedTokens turn.2.nNewTokens).map (fun pos =>
    { token := turn.1.fed.getD pos 0, pos := pos, seqIdx := seqIdx,
      slot := pool.cellOf turn.1.kv pos })

/-- Whether a step returns logits for a request. -/
def Samples (turn : Turn M) : Prop :=
  turn.1.isEmbedding = false ∧ turn.1.nTokens ≤ turn.1.numComputedTokens + turn.2.nNewTokens

instance (turn : Turn M) : Decidable (Samples turn) := by
  unfold Samples
  infer_instance

/-- The positions a step returns rows for. -/
def outPositions (turn : Turn M) : List Nat :=
  if turn.1.isEmbedding then List.range' turn.1.numComputedTokens turn.2.nNewTokens
  else if Samples turn then
    List.range' (turn.1.numComputedTokens + turn.2.nNewTokens - 1 - turn.2.nSpec) (turn.2.nSpec + 1)
  else []

/-- The cells and the token of each of these rows. -/
def outputsOf (pool : BlockPool) (cells : Cells M) (turn : Turn M) :
    List (List (Option M.KV) × Token) :=
  (outPositions turn).map (fun pos =>
    (context cells (seqInfo pool turn) (pos + 1), turn.1.fed.getD pos 0))

def ofTurns (pool : BlockPool) (turns : List (Turn M)) : Batch :=
  turns.foldl (fun batch turn => batch.push pool turn.1 turn.2) {}

theorem ofTurns_concat (pool : BlockPool) (turns : List (Turn M)) (turn : Turn M) :
    ofTurns pool (turns ++ [turn]) = (ofTurns pool turns).push pool turn.1 turn.2 := by
  rw [ofTurns, foldl_append, ← ofTurns]
  rfl

section

variable (pool : BlockPool) (batch : Batch) (turn : Turn M)

theorem push_tokens :
    (batch.push pool turn.1 turn.2).tokens =
      batch.tokens ++ freshTokens pool turn batch.seqs.length := by
  unfold push
  dsimp only
  split
  · rfl
  · split <;> rfl

theorem push_seqs : (batch.push pool turn.1 turn.2).seqs = batch.seqs ++ [seqInfo pool turn] := by
  unfold push
  dsimp only
  split
  · rfl
  · split <;> rfl

theorem push_logitRows :
    (batch.push pool turn.1 turn.2).logitRows =
      batch.logitRows ++ [if Samples turn then some batch.outIds.length else none] := by
  unfold push Samples
  dsimp only
  split
  · rename_i embedding
    simp [embedding]
  rename_i generation
  split
  · rename_i whole
    simp [generation, whole]
  · rename_i part
    simp [part]

theorem push_embdRows :
    (batch.push pool turn.1 turn.2).embdRows =
      batch.embdRows ++ [if turn.1.isEmbedding then some (batch.outIds.length, turn.2.nNewTokens)
        else none] := by
  unfold push
  dsimp only
  split
  · rfl
  · split <;> rfl

/-- The row numbers of a request point at its own tokens. -/
theorem push_outIds (real : turn.2.nSpec < turn.2.nNewTokens) :
    (batch.push pool turn.1 turn.2).outIds = batch.outIds ++ (outPositions turn).map
      (fun pos => batch.tokens.length + (pos - turn.1.numComputedTokens)) := by
  unfold push outPositions
  dsimp only
  by_cases embedding : turn.1.isEmbedding = true
  · rw [if_pos embedding, if_pos embedding]
    dsimp only
    congr 1
    refine ext_getElem (by simp) ?_
    intro k _ _
    simp only [getElem_map, getElem_range, getElem_range', length_append, length_map, length_range']
    omega
  · rw [if_neg embedding, if_neg embedding]
    by_cases whole : turn.1.nTokens ≤ turn.1.numComputedTokens + turn.2.nNewTokens
    · have samples : Samples turn := ⟨by simpa using embedding, whole⟩
      rw [if_pos whole, if_pos samples]
      dsimp only
      congr 1
      refine ext_getElem (by simp) ?_
      intro k _ _
      simp only [getElem_map, getElem_range, getElem_range', length_append,
        length_map, length_range']
      omega
    · rw [if_neg whole, if_neg (fun samples : Samples turn => whole samples.2), map_nil, append_nil]

end

/-- Row numbers and sequence numbers of a batch stay inside it. -/
structure WellFormed (batch : Batch) : Prop where
  seqs : ∀ token ∈ batch.tokens, token.seqIdx < batch.seqs.length
  rows : ∀ index ∈ batch.outIds, index < batch.tokens.length

/-- `next` is `batch` with one more sequence, which is fed `count` positions from `start` on.
Rows are returned for the positions `rows`. -/
structure Feeds (pool : BlockPool) (kv : KVRequestState) (seq : SeqInfo) (start count : Nat)
    (rows : List Nat) (batch next : Batch) : Prop where
  tokens : next.tokens = batch.tokens ++ (List.range' start count).map (fun pos =>
    { token := seq.fed.getD pos 0, pos := pos, seqIdx := batch.seqs.length,
      slot := pool.cellOf kv pos })
  seqs : next.seqs = batch.seqs ++ [seq]
  outIds : next.outIds = batch.outIds ++ rows.map (fun pos => batch.tokens.length + (pos - start))
  inside : ∀ pos ∈ rows, start ≤ pos ∧ pos < start + count

namespace Feeds

variable {pool : BlockPool} {kv : KVRequestState} {seq : SeqInfo} {start count : Nat}
  {rows : List Nat} {batch next : Batch}

section

variable (feeds : Feeds pool kv seq start count rows batch next) {token : BatchToken}
include feeds

theorem wellFormed (wellFormed : batch.WellFormed) : next.WellFormed := by
  refine ⟨?_, ?_⟩
  · rw [feeds.tokens, feeds.seqs, length_append, length_singleton]
    intro token member
    rcases mem_append.mp member with old | new
    · have inside := wellFormed.seqs token old
      omega
    · obtain ⟨pos, _, rfl⟩ := mem_map.mp new
      exact Nat.lt_succ_self _
  · rw [feeds.outIds, feeds.tokens, length_append, length_map, length_range']
    intro index member
    rcases mem_append.mp member with old | new
    · have inside := wellFormed.rows index old
      omega
    · obtain ⟨pos, row, rfl⟩ := mem_map.mp new
      have bound := feeds.inside pos row
      omega

/-- The sequences of the tokens that were there stay. -/
theorem seqOf (inside : token.seqIdx < batch.seqs.length) :
    next.seqOf token = batch.seqOf token := by
  rw [Batch.seqOf, Batch.seqOf, feeds.seqs, getD_eq_getElem?_getD,
    getD_eq_getElem?_getD, getElem?_append_left inside]

theorem seqOf_fresh (last : token.seqIdx = batch.seqs.length) :
    next.seqOf token = seq := by
  rw [Batch.seqOf, feeds.seqs, last, getD_eq_getElem?_getD,
    getElem?_append_right (Nat.le_refl _), Nat.sub_self]
  rfl

/-- The tokens of the sequence are written behind those that were there. -/
theorem write (wellFormed : batch.WellFormed) (cells : Cells M) :
    next.write cells =
      (List.range' start count).foldl (feedCell pool kv seq) (batch.write cells) := by
  have old : batch.tokens.foldl next.writeToken cells = batch.write cells := by
    rw [Batch.write]
    apply foldl_ext
    intro cells token member
    rw [writeToken, writeToken, feeds.seqOf (wellFormed.seqs token member)]
  rw [Batch.write, feeds.tokens, foldl_append, old, foldl_map]
  apply foldl_ext
  intro cells pos _
  cases place : pool.cellOf kv pos with
  | none => simp only [writeToken, feedCell, place]
  | some slot =>
    have fresh : next.seqOf ⟨seq.fed.getD pos 0, pos, batch.seqs.length, some slot⟩ = seq :=
      feeds.seqOf_fresh rfl
    simp only [writeToken, feedCell, place, fresh]

/-- The rows of the sequence come behind those that were there. -/
theorem outputs (wellFormed : batch.WellFormed) (cells : Cells M) :
    next.outputs cells = batch.outputs cells ++ rows.map (fun pos =>
      (context cells seq (pos + 1), seq.fed.getD pos 0)) := by
  rw [Batch.outputs, feeds.outIds, map_append, map_map, feeds.tokens]
  congr 1
  · apply map_congr_left
    intro index member
    have inside := wellFormed.rows index member
    have known := wellFormed.seqs (batch.tokens.get ⟨index, inside⟩) (get_mem _ _)
    rw [get_eq_getElem] at known
    simp only [getD_eq_getElem?_getD, getElem?_append_left inside,
      getElem?_eq_getElem inside, Option.getD_some]
    rw [feeds.seqOf known]
  · apply map_congr_left
    intro pos row
    obtain ⟨low, high⟩ := feeds.inside pos row
    simp only [Function.comp_apply]
    have place : batch.tokens.length + (pos - start) - batch.tokens.length = pos - start := by
      omega
    have back : start + (pos - start) = pos := by omega
    simp only [getD_eq_getElem?_getD, getElem?_append_right (Nat.le_add_right _ _),
      place, getElem?_map, getElem?_range' (show pos - start < count by omega),
      Nat.one_mul, back, Option.map_some, Option.getD_some]
    rw [feeds.seqOf_fresh rfl]

end

end Feeds

variable {turn : Turn M}

theorem outPositions_bound (real : turn.2.nSpec < turn.2.nNewTokens) {pos : Nat}
    (member : pos ∈ outPositions turn) :
    turn.1.numComputedTokens ≤ pos ∧ pos < turn.1.numComputedTokens + turn.2.nNewTokens := by
  unfold outPositions at member
  split at member
  · rw [mem_range'_1] at member
    omega
  split at member
  · rw [mem_range'_1] at member
    omega
  · cases member

theorem push_feeds (pool : BlockPool) (batch : Batch) (turn : Turn M)
    (real : turn.2.nSpec < turn.2.nNewTokens) :
    Feeds pool turn.1.kv (seqInfo pool turn) turn.1.numComputedTokens turn.2.nNewTokens
      (outPositions turn) batch (batch.push pool turn.1 turn.2) :=
  ⟨push_tokens pool batch turn, push_seqs pool batch turn, push_outIds pool batch turn real,
    fun _ member => outPositions_bound real member⟩

theorem ofTurns_wellFormed (pool : BlockPool) (turns : List (Turn M))
    (real : ∀ turn ∈ turns, turn.2.nSpec < turn.2.nNewTokens) :
    (ofTurns pool turns).WellFormed := by
  induction turns using List.reverseRecOn with
  | nil => exact ⟨by simp [ofTurns], by simp [ofTurns]⟩
  | append_singleton turns turn ih =>
    have last := real turn (mem_append_right _ mem_cons_self)
    have front := ih (fun other member => real other (mem_append_left _ member))
    rw [ofTurns_concat]
    exact (push_feeds pool _ turn last).wellFormed front

/-- The rows of a request come behind those of the requests before it. -/
theorem outputs_push {batch : Batch} (wellFormed : batch.WellFormed) (pool : BlockPool)
    (turn : Turn M) (real : turn.2.nSpec < turn.2.nNewTokens) (cells : Cells M) :
    (batch.push pool turn.1 turn.2).outputs cells =
      batch.outputs cells ++ outputsOf pool cells turn :=
  (push_feeds pool batch turn real).outputs wellFormed cells

theorem outputs_length (batch : Batch) (cells : Cells M) :
    (batch.outputs cells).length = batch.outIds.length := by
  rw [outputs, length_map]

/-- The rows of `turn` start at row `first`. -/
def Located (pool : BlockPool) (cells : Cells M) (outputs : List (List (Option M.KV) × Token))
    (turn : Turn M) (first : Nat) : Prop :=
  (outputs.drop first).take (outPositions turn).length = outputsOf pool cells turn

theorem Located.append {pool : BlockPool} {cells : Cells M}
    {outputs : List (List (Option M.KV) × Token)} {first : Nat}
    (located : Located pool cells outputs turn first) (more : List (List (Option M.KV) × Token)) :
    Located pool cells (outputs ++ more) turn first := by
  have length := congrArg List.length located
  rw [outputsOf, length_map, length_take] at length
  rw [Located, drop_append, take_append_of_le_length (by omega)]
  exact located

theorem Located.last (pool : BlockPool) (cells : Cells M)
    (outputs : List (List (Option M.KV) × Token)) (turn : Turn M) :
    Located pool cells (outputs ++ outputsOf pool cells turn) turn outputs.length := by
  rw [Located, drop_left, take_of_length_le]
  rw [outputsOf, length_map]

section

variable {Row : Type} {rowsOf : Batch → List Row} (own : Nat → Turn M → Row) {pool : BlockPool}
  (start : rowsOf {} = []) (pushed : ∀ (batch : Batch) (turn : Turn M),
    rowsOf (batch.push pool turn.1 turn.2) = rowsOf batch ++ [own batch.outIds.length turn])
include start pushed

theorem rows_length (turns : List (Turn M)) :
    (rowsOf (ofTurns pool turns)).length = turns.length := by
  induction turns using List.reverseRecOn with
  | nil => exact congrArg List.length start
  | append_singleton turns turn ih =>
    rw [ofTurns_concat, pushed, length_append, ih, length_append]
    rfl

/-- The entry of a request names the first of its rows. -/
theorem rows_located (cells : Cells M) {turns : List (Turn M)}
    (real : ∀ turn ∈ turns, turn.2.nSpec < turn.2.nNewTokens) {row : Row}
    (member : (turn, row) ∈ turns.zip (rowsOf (ofTurns pool turns))) :
    ∃ first, row = own first turn ∧
      Located pool cells ((ofTurns pool turns).outputs cells) turn first := by
  induction turns using List.reverseRecOn with
  | nil => simp at member
  | append_singleton turns last ih =>
    have before : ∀ turn ∈ turns, turn.2.nSpec < turn.2.nNewTokens :=
      fun other inside => real other (mem_append_left _ inside)
    have wellFormed := ofTurns_wellFormed pool turns before
    have lastReal := real last (mem_append_right _ mem_cons_self)
    rw [ofTurns_concat, pushed, zip_append (rows_length own start pushed turns).symm] at member
    rw [ofTurns_concat, outputs_push wellFormed pool last lastReal]
    rcases mem_append.mp member with old | new
    · obtain ⟨first, found, located⟩ := ih before old
      exact ⟨first, found, located.append _⟩
    simp only [zip_cons_cons, zip_nil_right, mem_singleton, Prod.mk.injEq] at new
    obtain ⟨same, found⟩ := new
    subst same
    rw [← outputs_length _ cells] at found
    exact ⟨_, found, Located.last pool cells _ turn⟩

end

section

variable (pool : BlockPool)

/-- The entry of `logitRows` for a request whose rows start at `first`. -/
abbrev logitRow (first : Nat) (turn : Turn M) : Option Nat :=
  if Samples turn then some first else none

abbrev embdRow (first : Nat) (turn : Turn M) : Option (Nat × Nat) :=
  if turn.1.isEmbedding then some (first, turn.2.nNewTokens) else none

theorem logitRows_length (turns : List (Turn M)) :
    (ofTurns pool turns).logitRows.length = turns.length :=
  rows_length logitRow rfl (push_logitRows pool) turns

theorem embdRows_length (turns : List (Turn M)) :
    (ofTurns pool turns).embdRows.length = turns.length :=
  rows_length embdRow rfl (push_embdRows pool) turns

variable (cells : Cells M) {turns : List (Turn M)}
  (real : ∀ turn ∈ turns, turn.2.nSpec < turn.2.nNewTokens)
include real

/-- Where the logits of each request are found. -/
theorem logitRows_located {row : Option Nat}
    (member : (turn, row) ∈ turns.zip (ofTurns pool turns).logitRows) :
    ∃ first, row = logitRow first turn ∧
      Located pool cells ((ofTurns pool turns).outputs cells) turn first :=
  rows_located logitRow rfl (push_logitRows pool) cells real member

/-- Where the hidden states of each embedding request are found. -/
theorem embdRows_located {row : Option (Nat × Nat)}
    (member : (turn, row) ∈ turns.zip (ofTurns pool turns).embdRows) :
    ∃ first, row = embdRow first turn ∧
      Located pool cells ((ofTurns pool turns).outputs cells) turn first :=
  rows_located embdRow rfl (push_embdRows pool) cells real member

end

end Batch

end Iian
