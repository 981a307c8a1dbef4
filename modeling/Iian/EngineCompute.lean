import Iian.EngineSteps

/- The step after scheduling: the batch, the commit and the passes over the outputs. -/
namespace Iian

open List Lib

variable {M : Model}

namespace Batch

/-- Every token of the batch goes to a cell behind the computed positions of its request. -/
theorem token_slot (pool : BlockPool) (turns : List (Turn M)) {token : BatchToken}
    (member : token ∈ (ofTurns pool turns).tokens) :
    ∃ turn ∈ turns, ∃ pos, turn.1.numComputedTokens ≤ pos ∧
      pos < turn.1.numComputedTokens + turn.2.nNewTokens ∧
      token.slot = pool.cellOf turn.1.kv pos := by
  induction turns using List.reverseRecOn with
  | nil => cases member
  | append_singleton turns last ih =>
    rw [ofTurns_concat, push_tokens] at member
    rcases mem_append.mp member with old | new
    · obtain ⟨turn, inside, facts⟩ := ih old
      exact ⟨turn, mem_append_left _ inside, facts⟩
    · obtain ⟨pos, range, rfl⟩ := mem_map.mp new
      rw [mem_range'_1] at range
      exact ⟨last, mem_append_right _ mem_cons_self, pos, range.1, range.2, rfl⟩

end Batch

variable {known : Registration → Prop} {cells : Cells M} {turns : List (Batch.Turn M)}
    {entry : ScheduledRequest} {next : Scheduler M} {r : Request M}

/-- Cells behind the computed positions of a request were not in use when a failed
computation spoils them. -/
theorem Layout.spoil {pool : BlockPool} {seats : List Seat} {slots : List BatchToken}
    (own : ∀ token ∈ slots, ∃ seat ∈ seats, ∃ pos, seat.computed ≤ pos ∧
      pos < seat.kv.blockIds.length * pool.blockSize ∧ token.slot = pool.cellOf seat.kv pos)
    (layout : Layout pool cells seats known) :
    Layout pool (Engine.spoil cells slots) seats known ∧
      (Exact pool cells seats → Exact pool (Engine.spoil cells slots) seats) := by
  induction slots generalizing cells with
  | nil => exact ⟨layout, fun exact => exact⟩
  | cons token slots ih =>
    obtain ⟨seat, member, pos, low, high, slot⟩ := own token mem_cons_self
    obtain ⟨front, back, shape⟩ := append_of_mem member
    have split : seats.Perm (seat :: (front ++ back)) := shape ▸ perm_middle
    obtain ⟨cell, found, _, written⟩ := (layout.perm split).setCell low high none
    have step : Engine.spoil cells (token :: slots) =
        Engine.spoil (cells.set cell none) slots := by
      rw [Engine.spoil, foldl_cons, slot.trans found]
      rfl
    obtain ⟨final, exact⟩ := ih (fun other inside => own other (mem_cons_of_mem _ inside))
      (written.perm split.symm)
    rw [step]
    exact ⟨final, fun sound => exact (sound.erase cell)⟩

theorem Scheduler.Valid.spoil {s : Scheduler M} (scheduled : Batch.Turns s turns)
    (slots : List BatchToken)
    (own : ∀ token ∈ slots, ∃ turn ∈ turns, ∃ pos, turn.1.numComputedTokens ≤ pos ∧
      pos < turn.1.numComputedTokens + turn.2.nNewTokens ∧
      token.slot = s.pool.cellOf turn.1.kv pos) (valid : s.Valid cells known) :
    s.Valid (Engine.spoil cells slots) known ∧
      (s.Exact cells → s.Exact (Engine.spoil cells slots)) := by
  have unused : ∀ token ∈ slots, ∃ seat ∈ s.allRequests.map Request.seat, ∃ pos,
      seat.computed ≤ pos ∧ pos < seat.kv.blockIds.length * s.pool.blockSize ∧
      token.slot = s.pool.cellOf seat.kv pos := by
    intro token member
    obtain ⟨turn, inside, pos, low, high, slot⟩ := own token member
    have room := (scheduled.ready turn inside).room
    have running := mem_append_left s.waiting (scheduled.running turn inside)
    exact ⟨turn.1.seat, mem_map_of_mem running, pos, low, Nat.lt_of_lt_of_le high room, slot⟩
  obtain ⟨layout, exact⟩ := Layout.spoil unused valid.layout
  exact ⟨{ valid with layout := layout }, exact⟩

/-- The commit changes neither the configuration nor who runs and who waits. -/
theorem Scheduler.updateAfterStep_frame (entries : List ScheduledRequest) (s : Scheduler M) :
    (s.updateAfterStep entries).cfg = s.cfg ∧ (s.updateAfterStep entries).waiting = s.waiting ∧
      (s.updateAfterStep entries).running.map Request.id = s.running.map Request.id := by
  unfold updateAfterStep
  induction entries generalizing s with
  | nil => exact ⟨rfl, rfl, rfl⟩
  | cons entry entries ih =>
    have one : (s.commit entry).cfg = s.cfg ∧ (s.commit entry).waiting = s.waiting ∧
        (s.commit entry).running.map Request.id = s.running.map Request.id := by
      unfold commit
      split
      · exact ⟨rfl, rfl, rfl⟩
      · split
        · exact ⟨rfl, rfl, rfl⟩
        · exact ⟨rfl, rfl, Keyed.replace_keys _ _⟩
    obtain ⟨cfg, waiting, running⟩ := ih (s.commit entry)
    exact ⟨cfg.trans one.1, waiting.trans one.2.1, running.trans one.2.2⟩

namespace Engine

variable {service : Service M} {known : Registration → Prop} {e : Engine M} {β : Type}
    {s : Scheduler M}

theorem mem_zip_snd {rows : List β} {row : β}
    (member : (entry, row) ∈ (turns.map Prod.snd).zip rows) :
    ∃ turn, (turn, row) ∈ turns.zip rows ∧ turn.2 = entry := by
  rw [zip_map_left] at member
  obtain ⟨⟨turn, value⟩, inside, same⟩ := mem_map.mp member
  cases same
  exact ⟨turn, inside, rfl⟩

theorem unique_zip {entries : List ScheduledRequest} (rows : List β)
    (unique : (entries.map ScheduledRequest.req).Nodup) :
    ((entries.zip rows).map (fun turn => turn.1.req)).Nodup := by
  induction entries generalizing rows with
  | nil => simp
  | cons entry entries ih =>
    rw [map_cons, nodup_cons] at unique
    cases rows with
    | nil => simp
    | cons row rows =>
      rw [zip_cons_cons, map_cons, nodup_cons]
      refine ⟨?_, ih rows unique.2⟩
      intro later
      obtain ⟨turn, inside, same⟩ := mem_map.mp later
      exact unique.1 (mem_map.mpr ⟨turn.1, (of_mem_zip inside).1, same⟩)

theorem unique_turns {turns : List (Batch.Turn M)} (scheduled : Batch.Turns s turns)
    (rows : List β) :
    (((turns.map Prod.snd).zip rows).map (fun turn => turn.1.req)).Nodup :=
  unique_zip rows scheduled.entries_unique

theorem zip_reqs (entries : List ScheduledRequest) (rows : List β)
    (same : rows.length = entries.length) :
    (entries.zip rows).map (fun turn => turn.1.req) = entries.map ScheduledRequest.req := by
  have front : (entries.zip rows).map Prod.fst = entries := map_fst_zip (Nat.le_of_eq same.symm)
  conv_rhs => rw [← front]
  rw [map_map]
  rfl

theorem build_rows (valid : s.Valid cells known) (scheduled : Batch.Turns s turns) :
    (Batch.build s (turns.map Prod.snd)).logitRows.length = (turns.map Prod.snd).length ∧
      (Batch.build s (turns.map Prod.snd)).embdRows.length = (turns.map Prod.snd).length := by
  obtain ⟨more, built⟩ := Batch.build_turns valid.unique scheduled
  rw [built, length_map]
  exact ⟨Batch.logitRows_length _ _, Batch.embdRows_length _ _⟩

theorem draftTurns_pool (drafts : Nat → List Token) (entries : List ScheduledRequest)
    (e : Engine M) :
    (entries.foldl (Engine.draftTurn drafts) e).sched.pool = e.sched.pool := by
  refine foldlRecOn (motive := fun next : Engine M => next.sched.pool = e.sched.pool) entries _ rfl ?_
  intro next same entry _
  rw [← same, Engine.draftTurn]
  split
  · rfl
  · split <;> rfl

/-- The trailing loop writes drafts only. -/
theorem draftTurns_due (drafts : Nat → List Token) (entries : List ScheduledRequest)
    (due : ∀ r ∈ e.sched.running, r.Due) :
    ∀ r ∈ (entries.foldl (Engine.draftTurn drafts) e).sched.running, r.Due := by
  refine foldlRecOn (motive := fun next : Engine M => ∀ r ∈ next.sched.running, r.Due) entries _ due
    ?_
  intro next due entry _
  unfold Engine.draftTurn
  dsimp only
  split
  · exact due
  rename_i old found
  split
  · intro r member
    rcases Scheduler.mem_store.mp member with ⟨here, _⟩ | ⟨new, _⟩
    · exact due r here
    · rw [new]
      exact due old (Scheduler.mem_of_find found).1
  · exact due

/-- The batch of a step. -/
abbrev batchOf (e : Engine M) (turns : List (Batch.Turn M)) : Batch :=
  Batch.build e.sched (turns.map Prod.snd)

/-- The engine behind the commits of a step. -/
abbrev committed (e : Engine M) (turns : List (Batch.Turn M)) : Engine M :=
  { e with
    cells := (e.batchOf turns).write e.cells
    sched := e.sched.updateAfterStep (turns.map Prod.snd) }

/-- The engine behind the pass over the embedding requests of a step. -/
def embedded (e : Engine M) (turns : List (Batch.Turn M)) : Engine M :=
  (e.committed turns).processEmbeddings (turns.map Prod.snd) (e.batchOf turns)
    ((e.batchOf turns).hidden (e.committed turns).cells)

theorem compute_success {input : StepInput} (success : input.failure = none) :
    e.compute (turns.map Prod.snd) input = (e.embedded turns).processOutputs (turns.map Prod.snd)
      (e.batchOf turns) ((e.batchOf turns).logits (e.committed turns).cells) input.drafts := by
  rw [Engine.compute, success]
  rfl

section Pass

variable (inv : e.Invariant service known) (sound : service.Sound known)
  (knows : e.sched.Knows known) (scheduled : Batch.Turns e.sched turns)
  (steady : ∀ turn ∈ turns, turn.1.isEmbedding = true →
    service.steady turn.1 turn.1.numComputedTokens)
include inv knows scheduled

/-- The engine after the writes of a step and their commit. -/
theorem Invariant.commits : (e.committed turns).Invariant service known ∧
    Scheduler.Committed e.sched (e.committed turns).sched turns := by
  obtain ⟨more, built⟩ := Batch.build_turns inv.sched.unique scheduled
  obtain ⟨layout, exact⟩ := Batch.write_layout inv.sched scheduled
  have written : (e.batchOf turns).write e.cells =
      (Batch.ofTurns e.sched.pool turns).write e.cells := by
    rw [batchOf, built]
    rfl
  rw [← written] at layout exact
  have fed : e.sched.Fed ((e.batchOf turns).write e.cells) known (turns.map Prod.snd) :=
    ⟨inv.sched.unique, inv.sched.running, inv.sched.waiting, layout⟩
  obtain ⟨valid, committed, committedExact, _⟩ := fed.commits knows scheduled.unique
    scheduled.running scheduled.handle
  exact ⟨inv.reschedule valid committed.blockSize
    (fun free => committedExact (exact (inv.exact free))) committed.content, committed⟩

/-- The requests after the commit of a step are those of the turns. -/
theorem Invariant.committed_turn {turn : Batch.Turn M} (member : turn ∈ turns)
    (running : r ∈ (e.committed turns).sched.running) (handle : r.id = turn.2.req) :
    r.content = turn.1.content ∧
      r.numComputedTokens = turn.1.numComputedTokens + turn.2.nNewTokens := by
  obtain ⟨start, committed⟩ := inv.commits knows scheduled
  obtain ⟨fresh, inside, content, computed⟩ := committed.done turn member
  have ids : fresh.id = turn.1.id := congrArg (fun r => r.id) content
  have same : r = fresh := inj_on_of_nodup_map start.sched.running_unique running inside
    (by rw [handle, ids, scheduled.handle turn member])
  rw [same]
  exact ⟨content, computed⟩

/-- After the commit only scheduled requests may have been computed to their end. -/
theorem Invariant.committed_due (due : ∀ r ∈ e.sched.running, r.Due)
    (member : r ∈ (e.committed turns).sched.running) :
    r.Due ∨ ∃ turn ∈ turns, r.id = turn.2.req := by
  obtain ⟨start, committed⟩ := inv.commits knows scheduled
  by_cases listed : ∃ turn ∈ turns, r.id = turn.2.req
  · exact .inr listed
  left
  have there : r.id ∈ e.sched.running.map Request.id := by
    rw [← (Scheduler.updateAfterStep_frame (turns.map Prod.snd) _).2.2]
    exact mem_map.mpr ⟨r, member, rfl⟩
  obtain ⟨old, inside, same⟩ := mem_map.mp there
  have kept := committed.kept old inside (by
    intro turn found equal
    exact listed ⟨turn, found, same.symm.trans equal⟩)
  rw [inj_on_of_nodup_map start.sched.running_unique member kept same.symm]
  exact due old inside

/-- Those that a pass does not reach have a token left. -/
theorem Invariant.passed_due {β : Type} {rows : List β}
    (length : rows.length = (turns.map Prod.snd).length) (due : ∀ r ∈ e.sched.running, r.Due)
    (member : r ∈ (e.committed turns).sched.running)
    (absent : r.id ∉ ((turns.map Prod.snd).zip rows).map (fun turn => turn.1.req)) : r.Due := by
  rcases inv.committed_due knows scheduled due member with here | ⟨turn, listed, handle⟩
  · exact here
  refine (absent ?_).elim
  rw [zip_reqs _ _ length, handle]
  exact mem_map.mpr ⟨turn.2, mem_map.mpr ⟨turn, listed, rfl⟩, rfl⟩

include sound steady in
/-- After the commit, the rows of an embedding request are those of its chunk. -/
theorem Invariant.embedReady {row : Option (Nat × Nat)}
    (member : (entry, row) ∈ (turns.map Prod.snd).zip (e.batchOf turns).embdRows)
    (running : r ∈ (e.committed turns).sched.running) (handle : r.id = entry.req) :
    EmbedReady service (chunkRows ((e.batchOf turns).hidden (e.committed turns).cells) row) r := by
  obtain ⟨turn, zipped, same⟩ := mem_zip_snd member
  have inside := (of_mem_zip zipped).1
  rw [← same] at handle
  obtain ⟨content, computed⟩ := inv.committed_turn knows scheduled inside running handle
  have kind : r.isEmbedding = turn.1.isEmbedding := congrArg (fun r => r.isEmbedding) content
  have tokens : r.tokens = turn.1.tokens := congrArg (fun r => r.tokens) content
  intro embedding
  rw [kind] at embedding
  obtain ⟨first, found, length, rows⟩ := Batch.hidden_exact inv.sched scheduled embedding zipped
  have ready := scheduled.ready turn inside
  have lives := inv.living (mem_append_left _ (scheduled.running turn inside))
  have blank : turn.1.specTokens = [] := by
    by_contra drafted
    rw [(lives.draftable sound.new drafted).1] at embedding
    cases embedding
  have undrafted := ready.drafts
  have fits := ready.tokens
  rw [blank, length_nil] at undrafted
  subst found
  refine ⟨turn.1.numComputedTokens, sound.steady _ _ _ content (steady turn inside embedding), ?_,
    ?_, ?_, ?_⟩
  · rw [chunkRows, Option.getD_some, length]
    exact computed
  · rw [chunkRows, Option.getD_some, length]
    exact Nat.lt_of_le_of_lt (Nat.zero_le _) ready.real
  · rw [chunkRows, Option.getD_some, length]
    change _ ≤ r.tokens.length
    rw [tokens]
    change _ ≤ turn.1.nTokens
    omega
  · intro free
    rw [chunkRows, Option.getD_some, length]
    dsimp only
    rw [rows (inv.exact free), Model.hiddenRows, tokens, Request.fed, blank, append_nil]

section

variable {row : Option Nat}
  (member : (entry, row) ∈ (turns.map Prod.snd).zip (e.batchOf turns).logitRows)
  (running : r ∈ (e.committed turns).sched.running) (handle : r.id = entry.req)
include member running handle

/-- After the commit, the rows of a generation request are those of its last token and its
drafts. -/
theorem Invariant.outputReady :
    OutputReady service ((e.batchOf turns).logits (e.committed turns).cells) (entry, row) r := by
  obtain ⟨turn, zipped, same⟩ := mem_zip_snd member
  have inside := (of_mem_zip zipped).1
  subst same
  obtain ⟨content, computed⟩ := inv.committed_turn knows scheduled inside running handle
  have tokens : r.tokens = turn.1.tokens := congrArg (fun r => r.tokens) content
  have drafts : r.specTokens = turn.1.specTokens := congrArg (fun r => r.specTokens) content
  intro _ first found
  change row = some first at found
  subst found
  obtain ⟨samples, rows⟩ := Batch.logits_exact inv.sched scheduled zipped
  have ready := scheduled.ready turn inside
  refine ⟨?_, ?_, ?_⟩
  · rw [drafts]
    exact ready.drafts
  · have least := samples.2
    have most := ready.tokens
    have whole := ready.whole
    change _ = r.tokens.length + turn.2.nSpec
    rw [computed, tokens]
    change _ = turn.1.nTokens + _
    omega
  · intro free
    rw [tokens, drafts]
    exact rows (inv.exact free)

theorem Invariant.rowsDue (after : Cells M) :
    RowsDue ((e.batchOf turns).logits after) (entry, row) r := by
  obtain ⟨turn, zipped, same⟩ := mem_zip_snd member
  have inside := (of_mem_zip zipped).1
  subst same
  obtain ⟨content, computed⟩ := inv.committed_turn knows scheduled inside running handle
  have counted := Batch.logits_count inv.sched scheduled zipped after
  have tokens : r.nTokens = turn.1.nTokens := congrArg (fun r => r.tokens.length) content
  intro generation
  have kind : turn.1.isEmbedding = false :=
    (congrArg (fun r => r.isEmbedding) content).symm.trans generation
  split at counted
  · obtain ⟨first, found, length⟩ := counted
    refine ⟨?_, ?_⟩
    · intro missing
      change row = none at missing
      rw [found] at missing
      cases missing
    · intro place here
      change row = some place at here
      rw [found] at here
      rw [← Option.some.inj here, length]
      exact Nat.lt_succ_self _
  · rename_i silent
    refine ⟨?_, ?_⟩
    · intro _
      change r.numComputedTokens < r.nTokens
      rw [computed, tokens]
      by_contra most
      exact silent ⟨kind, Nat.le_of_not_lt most⟩
    · intro place here
      change row = some place at here
      rw [counted] at here
      cases here

end

/-- A scheduled embedding request has rows in the batch. -/
theorem Invariant.embeds (due : ∀ r ∈ e.sched.running, r.Due)
    (silent : ¬ (e.batchOf turns).embdRows.any Option.isSome = true)
    (member : r ∈ (e.committed turns).sched.running) : r.Due ∨ r.isEmbedding = false := by
  rcases inv.committed_due knows scheduled due member with here | ⟨turn, listed, handle⟩
  · exact .inl here
  cases kind : r.isEmbedding with
  | false => exact .inr rfl
  | true =>
    have content := (inv.committed_turn knows scheduled listed member handle).1
    have embedding : turn.1.isEmbedding = true :=
      (congrArg (fun r => r.isEmbedding) content).symm.trans kind
    obtain ⟨place, inside, found⟩ := mem_iff_getElem.mp listed
    have bound : place < (e.batchOf turns).embdRows.length := by
      rw [(build_rows inv.sched scheduled).2, length_map]
      exact inside
    have zipped : (turn, (e.batchOf turns).embdRows[place]) ∈
        turns.zip (e.batchOf turns).embdRows := by
      refine mem_iff_getElem.mpr ⟨place, ?_, ?_⟩
      · rw [length_zip]
        omega
      · rw [getElem_zip, found]
    obtain ⟨first, row, _⟩ := Batch.hidden_exact inv.sched scheduled embedding zipped
    refine (silent (any_eq_true.mpr ⟨_, getElem_mem bound, ?_⟩)).elim
    rw [row]
    rfl

include sound steady in
/-- After the pass over the embedding requests only generation requests may be left that
have been computed to their end. -/
theorem Invariant.embedded : (e.embedded turns).Invariant service known ∧
    (∀ r ∈ (e.embedded turns).sched.running, r.isEmbedding = false →
      r ∈ (e.committed turns).sched.running) ∧
    ((∀ r ∈ e.sched.running, r.Due) →
      ∀ r ∈ (e.embedded turns).sched.running, r.Due ∨ r.isEmbedding = false) ∧
    Pooled service known e (e.embedded turns) := by
  have start := (inv.commits knows scheduled).1
  unfold Engine.embedded Engine.processEmbeddings
  split
  · obtain ⟨final, kept, pooled⟩ := start.embedTurns _ (unique_turns scheduled _)
      (fun turn member r running handle =>
        inv.embedReady sound knows scheduled steady member running handle)
    refine ⟨final, ?_, ?_, fun holds rule first =>
      pooled holds rule (rule.commits inv knows scheduled first)⟩
    · intro r member generation
      rcases kept r member with ⟨old, _⟩ | ⟨embedding, _⟩
      · exact old
      · rw [generation] at embedding
        cases embedding
    · intro due r member
      rcases kept r member with ⟨old, generation | absent⟩ | ⟨_, here⟩
      · exact .inr generation
      · exact .inl (inv.passed_due knows scheduled (build_rows inv.sched scheduled).2 due old absent)
      · exact .inl here
  · rename_i silent
    exact ⟨start, fun _ member _ => member,
      fun due _ member => inv.embeds knows scheduled due silent member,
      fun _ rule => rule.commits inv knows scheduled⟩

omit steady in
include sound in
/-- The computation of a step. When it succeeds every running request has a token left. -/
theorem Invariant.compute {input : StepInput}
    (steady : input.failure = none → ∀ turn ∈ turns, turn.1.isEmbedding = true →
      service.steady turn.1 turn.1.numComputedTokens) :
    (e.compute (turns.map Prod.snd) input).1.Invariant service known ∧
      ((∀ r ∈ e.sched.running, r.Due) → (e.compute (turns.map Prod.snd) input).2 = .ok () →
        ∀ r ∈ (e.compute (turns.map Prod.snd) input).1.sched.running, r.Due) ∧
      Pooled service known e (e.compute (turns.map Prod.snd) input).1 := by
  cases failure : input.failure with
  | some thrown =>
    rw [Engine.compute, failure]
    obtain ⟨more, built⟩ := Batch.build_turns inv.sched.unique scheduled
    obtain ⟨valid, spoiled⟩ := inv.sched.spoil scheduled
      ((e.batchOf turns).tokens.take thrown.2) (by
        rw [batchOf, built]
        intro token inside
        exact Batch.token_slot e.sched.pool turns (mem_of_mem_take inside))
    refine ⟨inv.reschedule valid rfl (fun free => spoiled (inv.exact free)) (.refl _), ?_,
      fun _ _ first => first⟩
    intro _ success
    cases success
  | none =>
    rw [compute_success failure]
    obtain ⟨middle, kept, left, embedded⟩ := inv.embedded sound knows scheduled (steady failure)
    obtain ⟨outputs, settled, pooled⟩ := middle.outputTurns sound.new
      ((turns.map Prod.snd).zip (e.batchOf turns).logitRows) (unique_turns scheduled _) (by
        intro turn member r running handle generation
        exact inv.outputReady knows scheduled member (kept r running generation) handle
          generation)
    rw [Engine.processOutputs]
    split
    · rename_i last result
      rw [result] at outputs settled pooled
      have due : (∀ r ∈ e.sched.running, r.Due) → ∀ r ∈ last.sched.running, r.Due := by
        intro due r member
        rcases settled (fun turn member r running handle generation => inv.rowsDue knows scheduled
          member (kept r running generation) handle _ generation) rfl r member with
          here | ⟨old, rest⟩
        · exact here
        rcases left due r old with here | generation
        · exact here
        rcases rest with embedding | absent
        · rw [generation] at embedding
          cases embedding
        · exact inv.passed_due knows scheduled (build_rows inv.sched scheduled).1 due
            (kept r old generation) absent
      split
      · refine ⟨outputs.draftTurns _ _, fun first _ => draftTurns_due _ _ (due first),
          fun holds rule first => ?_⟩
        rw [draftTurns_pool]
        exact embedded.trans pooled holds rule first
      · exact ⟨outputs, fun first _ => due first, embedded.trans pooled⟩
    · rename_i failed
      exact ⟨outputs, fun _ success => (failed _ (Prod.ext rfl success)).elim, embedded.trans pooled⟩

end Pass

end Engine

end Iian
