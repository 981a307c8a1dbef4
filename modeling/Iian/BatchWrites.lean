import Iian.BatchRows

/- The writes of a whole step, and what its rows are. -/
namespace Iian

open List Lib

variable {M : Model}

/-- The number of tokens that the entries feed to a request. -/
def fedCount : List ScheduledRequest → Nat → Nat
  | [], _ => 0
  | entry :: entries, id => (if entry.req = id then entry.nNewTokens else 0) + fedCount entries id

theorem fedCount_append (entries more : List ScheduledRequest) (id : Nat) :
    fedCount (entries ++ more) id = fedCount entries id + fedCount more id := by
  induction entries with
  | nil => simp [fedCount]
  | cons entry entries ih => rw [cons_append, fedCount, fedCount, ih, Nat.add_assoc]

variable {entries : List ScheduledRequest}

theorem fedCount_absent {id : Nat} (absent : id ∉ entries.map ScheduledRequest.req) :
    fedCount entries id = 0 := by
  induction entries with
  | nil => rfl
  | cons entry entries ih =>
    rw [map_cons, mem_cons, not_or] at absent
    rw [fedCount, ih absent.2, if_neg (fun same => absent.1 same.symm)]

theorem fedCount_mem {entry : ScheduledRequest} (unique : (entries.map ScheduledRequest.req).Nodup)
    (member : entry ∈ entries) : fedCount entries entry.req = entry.nNewTokens := by
  induction entries with
  | nil => cases member
  | cons first entries ih =>
    rw [map_cons, nodup_cons] at unique
    rw [fedCount]
    rcases mem_cons.mp member with same | later
    · rw [← same, if_pos rfl, fedCount_absent (by rw [same]; exact unique.1), Nat.add_zero]
    have different : first.req ≠ entry.req := by
      intro same
      exact unique.1 (same ▸ mem_map.mpr ⟨entry, later, rfl⟩)
    rw [if_neg different, ih unique.2 later, Nat.zero_add]

/-- The seat of a request once the entries have been fed. -/
def Request.seatAfter (entries : List ScheduledRequest) (r : Request M) : Seat :=
  { r.seat with computed := r.numComputedTokens + fedCount entries r.id }

namespace Batch

/-- The scheduled requests of a step, each with its entry. -/
structure Turns (s : Scheduler M) (turns : List (Turn M)) : Prop where
  unique : (turns.map (fun turn => turn.2.req)).Nodup
  running : ∀ turn ∈ turns, turn.1 ∈ s.running
  handle : ∀ turn ∈ turns, turn.1.id = turn.2.req
  ready : ∀ turn ∈ turns, turn.1.Ready s.pool.blockSize turn.2

variable {s : Scheduler M} {turns : List (Turn M)} {cells : Cells M} {known : Registration → Prop}
    {turn last : Turn M} {first : Nat}

theorem Turns.real (scheduled : Turns s turns) : ∀ turn ∈ turns, turn.2.nSpec < turn.2.nNewTokens :=
  fun turn member => (scheduled.ready turn member).real

theorem Turns.entries_unique (scheduled : Turns s turns) :
    ((turns.map Prod.snd).map ScheduledRequest.req).Nodup := by
  rw [map_map]
  exact scheduled.unique

theorem Turns.front (scheduled : Turns s (turns ++ [last])) : Turns s turns := by
  have unique := scheduled.unique
  rw [map_append, nodup_append] at unique
  exact ⟨unique.1, fun turn member => scheduled.running turn (mem_append_left _ member),
    fun turn member => scheduled.handle turn (mem_append_left _ member),
    fun turn member => scheduled.ready turn (mem_append_left _ member)⟩

theorem Turns.last_absent (scheduled : Turns s (turns ++ [last])) :
    last.1.id ∉ (turns.map Prod.snd).map ScheduledRequest.req := by
  have unique := scheduled.unique
  rw [map_append, nodup_append] at unique
  rw [map_map, scheduled.handle last (mem_append_right _ mem_cons_self)]
  intro inside
  exact unique.2.2 _ inside _ mem_cons_self rfl

theorem turns_exist (s : Scheduler M) (entries : List ScheduledRequest)
    (unique : (entries.map ScheduledRequest.req).Nodup)
    (ready : ∀ entry ∈ entries, ∃ r ∈ s.running, r.id = entry.req ∧
      r.Ready s.pool.blockSize entry) :
    ∃ turns, turns.map Prod.snd = entries ∧ Turns s turns := by
  have paired : ∃ turns : List (Turn M), turns.map Prod.snd = entries ∧ ∀ turn ∈ turns,
      turn.1 ∈ s.running ∧ turn.1.id = turn.2.req ∧ turn.1.Ready s.pool.blockSize turn.2 := by
    clear unique
    induction entries with
    | nil => exact ⟨[], rfl, by simp⟩
    | cons entry entries ih =>
      obtain ⟨r, member, handle, room⟩ := ready entry mem_cons_self
      obtain ⟨turns, same, facts⟩ := ih (fun other inside => ready other (mem_cons_of_mem _ inside))
      refine ⟨(r, entry) :: turns, by rw [map_cons, same], ?_⟩
      exact forall_mem_cons.mpr ⟨⟨member, handle, room⟩, facts⟩
  obtain ⟨turns, same, facts⟩ := paired
  refine ⟨turns, same, ?_, fun turn member => (facts turn member).1,
    fun turn member => (facts turn member).2.1, fun turn member => (facts turn member).2.2⟩
  rw [← same, map_map] at unique
  exact unique

/-- `build` goes through the requests of the turns; it may add a row that nobody reads. -/
theorem build_turns (unique : (s.allRequests.map Request.id).Nodup) (scheduled : Turns s turns) :
    ∃ more, build s (turns.map Prod.snd) = { ofTurns s.pool turns with
      outIds := (ofTurns s.pool turns).outIds ++ more } := by
  rw [Scheduler.allRequests, map_append, nodup_append] at unique
  have same : (turns.map Prod.snd).foldl (pushEntry s) {} = ofTurns s.pool turns := by
    rw [ofTurns, foldl_map]
    apply foldl_ext
    intro batch turn member
    have found : s.find turn.2.req = some turn.1 := by
      rw [Scheduler.find, ← scheduled.handle turn member]
      exact Keyed.find_of_mem unique.1 (scheduled.running turn member)
    rw [pushEntry, found]
  rw [build, same]
  split
  · rename_i empty
    refine ⟨[0], ?_⟩
    rw [List.isEmpty_iff.mp empty, nil_append]
  · exact ⟨[], by rw [append_nil]⟩

/-- The layout after the writes of a step: what a scheduled request is fed counts as
computed. -/
theorem write_layout (valid : s.Valid cells known) (scheduled : Turns s turns) :
    Layout s.pool ((ofTurns s.pool turns).write cells)
        (s.allRequests.map (Request.seatAfter (turns.map Prod.snd))) known ∧
      (s.Exact cells → Exact s.pool ((ofTurns s.pool turns).write cells)
        (s.allRequests.map (Request.seatAfter (turns.map Prod.snd)))) := by
  induction turns using List.reverseRecOn with
  | nil => exact ⟨valid.layout, fun exact => exact⟩
  | append_singleton turns last ih =>
    obtain ⟨layout, exact⟩ := ih scheduled.front
    have inside : last ∈ turns ++ [last] := mem_append_right _ mem_cons_self
    have ready := scheduled.ready last inside
    have handle := scheduled.handle last inside
    have absent := scheduled.last_absent
    have split := Keyed.perm_cons_remove valid.unique
      (mem_append_left _ (scheduled.running last inside))
    -- only the seat of the last request moves
    have moved : last.1.seatAfter ((turns ++ [last]).map Prod.snd) =
        { last.1.seat with computed := last.1.numComputedTokens + last.2.nNewTokens } := by
      rw [Request.seatAfter, map_append, fedCount_append, fedCount_absent absent,
        map_singleton, fedCount, fedCount, if_pos handle.symm, Nat.add_zero, Nat.zero_add]
    have start : last.1.seatAfter (turns.map Prod.snd) = last.1.seat := by
      rw [Request.seatAfter, fedCount_absent absent]
      rfl
    have others : ∀ r ∈ Keyed.remove Request.id last.1.id s.allRequests,
        r.seatAfter ((turns ++ [last]).map Prod.snd) = r.seatAfter (turns.map Prod.snd) := by
      intro r member
      have different := (Keyed.mem_remove.mp member).2
      rw [Request.seatAfter, map_append, fedCount_append, map_singleton, fedCount,
        fedCount, if_neg (fun same => different (same.symm.trans handle.symm))]
      rfl
    have before := split.map (Request.seatAfter (turns.map Prod.snd))
    have after := split.map (Request.seatAfter ((turns ++ [last]).map Prod.snd))
    rw [map_cons, start] at before
    rw [map_cons, moved, map_congr_left others] at after
    have table : (seqInfo s.pool last).cells = (List.range (last.1.numComputedTokens +
      last.2.nNewTokens)).map (s.pool.cellOf last.1.kv) := rfl
    obtain ⟨fed, fedExact⟩ := (layout.perm before).feed table rfl (Nat.le_refl _) ready.room
      ready.fed_bound
    rw [ofTurns_concat, (push_feeds s.pool _ last ready.real).write
      (ofTurns_wellFormed s.pool turns scheduled.front.real)]
    exact ⟨fed.perm after.symm, fun sound => (fedExact ((exact sound).perm before)).perm after.symm⟩

/-- The rows of a request are those of the tokens it was fed. -/
theorem outputsOf_exact (valid : s.Valid cells known) (exact : s.Exact cells)
    (scheduled : Turns s turns) (member : turn ∈ turns) :
    outputsOf s.pool ((ofTurns s.pool turns).write cells) turn =
      (outPositions turn).map (fun pos =>
        (M.cacheOf (turn.1.fed.take (pos + 1)), turn.1.fed.getD pos 0)) := by
  obtain ⟨layout, sound⟩ := write_layout valid scheduled
  have split := (Keyed.perm_cons_remove valid.unique (mem_append_left _
    (scheduled.running turn member))).map (Request.seatAfter (turns.map Prod.snd))
  have enough : turn.1.numComputedTokens + turn.2.nNewTokens ≤
      (turn.1.seatAfter (turns.map Prod.snd)).computed := by
    have unique := scheduled.unique
    have count : fedCount (turns.map Prod.snd) turn.2.req = turn.2.nNewTokens :=
      fedCount_mem (by rw [map_map]; exact unique) (mem_map.mpr ⟨turn, member, rfl⟩)
    rw [Request.seatAfter, scheduled.handle turn member, count]
  rw [outputsOf]
  apply map_congr_left
  intro pos row
  have bound := outPositions_bound (scheduled.real turn member) row
  rw [(layout.perm split).context ((sound exact).perm split) rfl
    (Nat.succ_le_of_lt bound.2) (by omega)]
  rfl

theorem getLastD_take {tokens : List Token} {pos : Nat} (inside : pos < tokens.length) :
    (tokens.take (pos + 1)).getLastD 0 = tokens.getD pos 0 := by
  rw [getLastD_eq_getLast?, getLast?_eq_getElem?, length_take,
    Nat.min_eq_left (by omega), Nat.add_sub_cancel, getElem?_take_of_lt (Nat.lt_succ_self _),
    getD_eq_getElem?_getD]

theorem outputs_more (batch : Batch) (more : List Nat) (cells : Cells M) :
    ∃ extra, ({ batch with outIds := batch.outIds ++ more } : Batch).outputs cells =
      batch.outputs cells ++ extra := by
  rw [outputs, map_append]
  exact ⟨_, rfl⟩

/-- The rows of a request in the batch of the step, as a function of the tokens it was fed. -/
theorem rows_exact (valid : s.Valid cells known) (exact : s.Exact cells) (scheduled : Turns s turns)
    (member : turn ∈ turns) (located : Located s.pool ((ofTurns s.pool turns).write cells)
      ((ofTurns s.pool turns).outputs ((ofTurns s.pool turns).write cells)) turn first)
    (more : List Nat) {β : Type} (f : List (Option M.KV) → Token → β) :
    List.take (outPositions turn).length (List.drop first
      ((({ ofTurns s.pool turns with
        outIds := (ofTurns s.pool turns).outIds ++ more } : Batch).outputs
          ((ofTurns s.pool turns).write cells)).map (fun output => f output.1 output.2))) =
      (outPositions turn).map (fun pos =>
        f (M.cacheOf (turn.1.fed.take (pos + 1))) ((turn.1.fed.take (pos + 1)).getLastD 0)) := by
  obtain ⟨extra, outputs⟩ := outputs_more (ofTurns s.pool turns) more
    ((ofTurns s.pool turns).write cells)
  have slice := located.append extra
  rw [Located, outputsOf_exact valid exact scheduled member] at slice
  rw [outputs, ← map_drop, ← map_take, slice, map_map]
  apply map_congr_left
  intro pos row
  have bound := outPositions_bound (scheduled.real turn member) row
  have fits := (scheduled.ready turn member).fed_bound
  rw [getLastD_take (by omega)]
  rfl

/-- A request that is sampled has been fed all its tokens. -/
theorem Samples.whole {size : Nat} (samples : Samples turn) (ready : turn.1.Ready size turn.2) :
    turn.1.numComputedTokens + turn.2.nNewTokens = turn.1.nTokens + turn.2.nSpec := by
  have least := samples.2
  have most := ready.tokens
  have drafted := ready.whole
  omega

theorem outPositions_sampled {size : Nat} (samples : Samples turn)
    (ready : turn.1.Ready size turn.2) :
    outPositions turn = List.range' (turn.1.nTokens - 1) (turn.2.nSpec + 1) := by
  rw [outPositions, if_neg (by rw [samples.1]; decide), if_pos samples, samples.whole ready]
  congr 1
  omega

variable (valid : s.Valid cells known) (scheduled : Turns s turns)

include valid scheduled

/-- A request has a row for its last token and one for every draft it was fed, or it has
more tokens to be fed. -/
theorem logits_count {row : Option Nat}
    (member : (turn, row) ∈ turns.zip (build s (turns.map Prod.snd)).logitRows) (after : Cells M) :
    if Samples turn then ∃ first, row = some first ∧
      ((((build s (turns.map Prod.snd)).logits after).drop first).take
        (turn.2.nSpec + 1)).length = turn.2.nSpec + 1
    else row = none := by
  obtain ⟨more, built⟩ := build_turns valid.unique scheduled
  rw [built] at member ⊢
  have inside := (of_mem_zip member).1
  obtain ⟨first, same, located⟩ := logitRows_located s.pool after scheduled.real member
  unfold logitRow at same
  split at same
  · rename_i samples
    obtain ⟨extra, outputs⟩ := outputs_more (ofTurns s.pool turns) more after
    have length := congrArg List.length (located.append extra)
    rw [← outputs, outputsOf, length_map,
      outPositions_sampled samples (scheduled.ready turn inside), length_range'] at length
    rw [if_pos samples]
    refine ⟨first, same, ?_⟩
    rw [logits, ← map_drop, ← map_take, length_map]
    exact length
  · rename_i silent
    rw [if_neg silent]
    exact same

/-- The logits rows of a request that is sampled: one for its last token and one for every
draft it was fed. -/
theorem logits_exact
    (member : (turn, some first) ∈ turns.zip (build s (turns.map Prod.snd)).logitRows) :
    Samples turn ∧ (s.Exact cells →
      (((build s (turns.map Prod.snd)).logits ((build s (turns.map Prod.snd)).write cells)).drop
        first).take (turn.2.nSpec + 1) =
          Request.draftRows M.prefixLogits turn.1.tokens (turn.1.specTokens.take turn.2.nSpec)) := by
  obtain ⟨more, built⟩ := build_turns valid.unique scheduled
  rw [built] at member ⊢
  have inside := (of_mem_zip member).1
  obtain ⟨start, same, located⟩ :=
    logitRows_located s.pool ((ofTurns s.pool turns).write cells) scheduled.real member
  unfold logitRow at same
  split at same
  · rename_i samples
    cases same
    refine ⟨samples, ?_⟩
    intro exact
    have rows := rows_exact valid exact scheduled inside located more M.logits
    have ready := scheduled.ready turn inside
    have real := ready.real
    have drafts := ready.drafts
    have whole := samples.whole ready
    rw [outPositions_sampled samples ready, length_range'] at rows
    refine rows.trans ?_
    rw [Request.draftRows, length_take, Nat.min_eq_left drafts]
    refine ext_getElem (by simp) ?_
    intro k below _
    rw [length_map, length_range'] at below
    simp only [getElem_map, getElem_range, getElem_range', Nat.one_mul]
    have length : turn.1.nTokens - 1 + k + 1 = turn.1.tokens.length + k := by
      change _ = turn.1.nTokens + k
      omega
    have tokens : turn.1.fed.take (turn.1.nTokens - 1 + k + 1) =
        turn.1.tokens ++ (turn.1.specTokens.take turn.2.nSpec).take k := by
      rw [length, Request.fed, take_length_add_append, take_take, Nat.min_eq_left (by omega)]
    rw [tokens]
    rfl
  · cases same

/-- The hidden states of the tokens an embedding request was fed. -/
theorem hidden_exact {row : Option (Nat × Nat)} (embedding : turn.1.isEmbedding = true)
    (member : (turn, row) ∈ turns.zip (build s (turns.map Prod.snd)).embdRows) :
    ∃ first, row = some (first, turn.2.nNewTokens) ∧
      ((((build s (turns.map Prod.snd)).hidden ((build s (turns.map Prod.snd)).write cells)).drop
        first).take turn.2.nNewTokens).length = turn.2.nNewTokens ∧
      (s.Exact cells → (((build s (turns.map Prod.snd)).hidden
        ((build s (turns.map Prod.snd)).write cells)).drop first).take turn.2.nNewTokens =
          (List.range' turn.1.numComputedTokens turn.2.nNewTokens).map
            (fun pos => M.prefixHidden (turn.1.fed.take (pos + 1)))) := by
  obtain ⟨more, built⟩ := build_turns valid.unique scheduled
  rw [built] at member ⊢
  have inside := (of_mem_zip member).1
  obtain ⟨first, found, located⟩ := embdRows_located s.pool
    ((ofTurns s.pool turns).write cells) scheduled.real member
  rw [embdRow, if_pos embedding] at found
  refine ⟨first, found, ?_, ?_⟩
  · obtain ⟨extra, outputs⟩ := outputs_more (ofTurns s.pool turns) more
      ((ofTurns s.pool turns).write cells)
    have length := congrArg List.length (located.append extra)
    rw [← outputs, outPositions, if_pos embedding, length_range', outputsOf, length_map,
      outPositions, if_pos embedding, length_range'] at length
    rw [length_take, length_drop] at length ⊢
    rw [hidden, length_map]
    exact length
  · intro exact
    have rows := rows_exact valid exact scheduled inside located more M.hidden
    rw [outPositions, if_pos embedding, length_range'] at rows
    exact rows

end Batch

end Iian
