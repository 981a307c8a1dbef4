import Iian.EngineInvariant

/- The passes over the scheduled requests after the computation of a step. -/
namespace Iian

open List Lib

variable {M : Model}

namespace Engine

variable {service : Service M} {known : Registration → Prop} {e : Engine M}
    {hidden : List M.Embedding} {id : Nat} {s : Scheduler M} {r : Request M}

/-- A turn that has only changed the request of its own handle. -/
structure Confined (e next : Engine M) (id : Nat) : Prop where
  others : ∀ r ∈ next.sched.running, r.id ≠ id → r ∈ e.sched.running
  cfg : next.cfg = e.cfg

theorem Confined.access (e : Engine M) (id : Nat) : Confined e (e.access id) id :=
  ⟨fun _ member _ => member, rfl⟩

theorem Confined.store (handle : r.id = id) :
    Confined e ((e.access id).store r) id := by
  refine ⟨?_, rfl⟩
  intro other member different
  rcases Scheduler.mem_store.mp member with ⟨old, _⟩ | ⟨new, _⟩
  · exact old
  · exact (different (by rw [new]; exact handle)).elim

/-- The requests of later turns have not changed yet. -/
theorem later_unchanged {next : Engine M} {γ : Type} {turn : ScheduledRequest × γ}
    {turns : List (ScheduledRequest × γ)}
    (others : ∀ r ∈ next.sched.running, r.id ≠ turn.1.req → r ∈ e.sched.running)
    (absent : turn.1.req ∉ turns.map (fun turn => turn.1.req)) :
    ∀ later ∈ turns, ∀ r ∈ next.sched.running, r.id = later.1.req → r ∈ e.sched.running := by
  intro later inside r member handle
  apply others r member
  rw [handle]
  exact fun same => absent (mem_map.mpr ⟨later, inside, same⟩)

theorem find_none (absent : s.find id = none) (member : r ∈ s.running) :
    r.id ≠ id := by
  intro same
  have other := find?_eq_none.mp absent r member
  simp [same] at other

theorem find_eq {r old : Request M} (unique : (s.running.map Request.id).Nodup)
    (found : s.find id = some old) (member : r ∈ s.running) (handle : r.id = id) : r = old :=
  inj_on_of_nodup_map unique member (Scheduler.mem_of_find found).1
    (handle.trans (Scheduler.mem_of_find found).2.symm)

/-- The rows of a chunk belong to the tokens the embedding request was just fed. -/
def EmbedReady (service : Service M) (rows : List M.Embedding) (r : Request M) : Prop :=
  r.isEmbedding = true → ∃ start, service.steady r start ∧
    r.numComputedTokens = start + rows.length ∧ 0 < rows.length ∧
    start + rows.length ≤ r.nTokens ∧
    (service.exact → rows = M.hiddenRows r.tokens start rows.length)

/-- After its turn an embedding request has ended or has tokens left. -/
theorem Invariant.embedTurn (inv : e.Invariant service known)
    {turn : ScheduledRequest × Option (Nat × Nat)}
    (ready : ∀ r ∈ e.sched.running, r.id = turn.1.req →
      EmbedReady service (chunkRows hidden turn.2) r) :
    (e.embedTurn hidden turn).Invariant service known ∧
      Confined e (e.embedTurn hidden turn) turn.1.req ∧
      (∀ r ∈ (e.embedTurn hidden turn).sched.running, r.id = turn.1.req →
        r.isEmbedding = false ∧ r ∈ e.sched.running ∨
          r.isEmbedding = true ∧ r.numComputedTokens < r.nTokens) ∧
      Pooled service known e (e.embedTurn hidden turn) := by
  have accessed := inv.access turn.1.req
  rw [Engine.embedTurn]
  dsimp only
  split
  · rename_i absent
    exact ⟨accessed, .access e _, fun r member handle => (find_none absent member handle).elim,
      fun _ _ start => start⟩
  · rename_i r found
    obtain ⟨member, handle⟩ := Scheduler.mem_of_find found
    have running := inv.sched.not_finished (mem_append_left _ member)
    split
    · rename_i skipped
      rw [running, Bool.or_false, Bool.not_eq_true'] at skipped
      refine ⟨accessed, .access e _, ?_, fun _ _ start => start⟩
      intro other inside own
      rw [find_eq inv.sched.running_unique found inside own]
      exact .inl ⟨skipped, member⟩
    · rename_i chosen
      have embedding : r.isEmbedding = true := by
        cases kind : r.isEmbedding with
        | true => rfl
        | false => simp [kind] at chosen
      obtain ⟨start, steady, computed, some, inside, exact⟩ := ready r member handle embedding
      have lives := inv.living (mem_append_left _ member)
      split
      · rename_i reached
        have whole : start + (chunkRows hidden turn.2).length = r.nTokens := by
          change r.nTokens ≤ r.numComputedTokens at reached
          omega
        obtain ⟨next, running, _⟩ := accessed.finish (mem_append_left _ member)
          (show (r.poolRows (chunkRows hidden turn.2)).embed.id = r.id from rfl) rfl rfl
          (fun last same => Service.Ended.embedded lives embedding steady some whole exact same)
        refine ⟨next, ⟨?_, ?_⟩, ?_, ?_⟩
        · intro other remains _
          rw [running] at remains
          exact (Keyed.mem_remove.mp remains).1
        · rw [next.cfg, inv.cfg]
        · intro other remains own
          rw [running] at remains
          exact ((Keyed.mem_remove.mp remains).2 (own.trans handle.symm)).elim
        · exact accessed.finish_pooled (mem_append_left _ member)
            (show (r.poolRows (chunkRows hidden turn.2)).embed.kv = r.kv from rfl) rfl _ _ _
      · rename_i left
        have pooled : service.Lives (r.poolRows (chunkRows hidden turn.2)) :=
          .pool lives embedding steady some inside exact
        refine ⟨accessed.store member rfl (inv.sched.running r member) pooled
          (fun rest layout => ⟨layout, fun exact => exact⟩),
          Confined.store (show (r.poolRows _).id = _ from handle), ?_, fun _ _ start => start⟩
        intro other remains own
        rcases Scheduler.mem_store.mp remains with ⟨_, different⟩ | ⟨new, _⟩
        · exact (different (own.trans handle.symm)).elim
        · rw [new]
          exact .inr ⟨embedding, Nat.lt_of_not_le left⟩

theorem Invariant.embedTurns (turns : List (ScheduledRequest × Option (Nat × Nat)))
    (inv : e.Invariant service known) (unique : (turns.map (fun turn => turn.1.req)).Nodup)
    (ready : ∀ turn ∈ turns, ∀ r ∈ e.sched.running, r.id = turn.1.req →
      EmbedReady service (chunkRows hidden turn.2) r) :
    (turns.foldl (Engine.embedTurn hidden) e).Invariant service known ∧
      (∀ r ∈ (turns.foldl (Engine.embedTurn hidden) e).sched.running,
        r ∈ e.sched.running ∧ (r.isEmbedding = false ∨ r.id ∉ turns.map (fun turn => turn.1.req)) ∨
          r.isEmbedding = true ∧ r.numComputedTokens < r.nTokens) ∧
      Pooled service known e (turns.foldl (Engine.embedTurn hidden) e) := by
  induction turns generalizing e with
  | nil => exact ⟨inv, fun r member => .inl ⟨member, .inr (by simp)⟩, fun _ _ start => start⟩
  | cons turn turns ih =>
    rw [map_cons, nodup_cons] at unique
    obtain ⟨first, confined, settled, pooled⟩ := inv.embedTurn (ready turn mem_cons_self)
    have apart := later_unchanged confined.others unique.1
    obtain ⟨final, kept, later⟩ := ih first unique.2 (fun later inside r member handle =>
      ready later (mem_cons_of_mem _ inside) r (apart later inside r member handle) handle)
    refine ⟨final, ?_, pooled.trans later⟩
    intro r member
    rcases kept r member with ⟨here, rest⟩ | left
    · by_cases handle : r.id = turn.1.req
      · rcases settled r here handle with ⟨kind, old⟩ | left
        · exact .inl ⟨old, .inl kind⟩
        · exact .inr left
      · refine .inl ⟨confined.others r here handle, rest.imp_right fun absent => ?_⟩
        rw [map_cons, mem_cons, not_or]
        exact ⟨handle, absent⟩
    · exact .inr left

end Engine

/-- Accepted drafts have been fed already, and rejected ones count as not computed. -/
theorem Request.Verified.layout {r next final : Request M} {nSpec : Nat}
    (verified : r.Verified nSpec next) (computed : r.numComputedTokens = r.nTokens + nSpec)
    (drafts : nSpec ≤ r.specTokens.length) (tokens : final.tokens = next.tokens)
    (count : final.numComputedTokens = next.numComputedTokens) (kv : final.kv = r.kv)
    (opts : final.opts = r.opts) (hashes : final.blockHashes = r.blockHashes)
    {pool : BlockPool} {cells : Cells M} {known : Registration → Prop} (rest : List Seat)
    (layout : Layout pool cells (r.seat :: rest) known) :
    Layout pool cells (final.seat :: rest) known ∧
      (Exact pool cells (r.seat :: rest) → Exact pool cells (final.seat :: rest)) := by
  obtain ⟨accepted, few, nComputed, front⟩ := verified.accepted
  rw [← tokens] at front
  rw [← count] at nComputed
  have valid := layout.valid _ mem_cons_self
  have length : (r.tokens ++ r.specTokens.take accepted).length = r.nTokens + accepted := by
    rw [length_append, length_take, Nat.min_eq_left (by omega)]
    rfl
  have longer := front.length_le
  have real : r.kv.numCachedBlocks * pool.blockSize ≤ r.nTokens := valid.real
  have grown : r.tokens <+: final.tokens := (prefix_append _ _).trans front
  refine layout.revise ⟨kv, congrArg RequestOptions.cacheSalt opts, ?_, grown, ?_, ?_, ?_, ?_⟩
  · obtain ⟨more, same⟩ := grown
    change HashesOf _ final.opts.cacheSalt final.tokens final.blockHashes
    rw [← same, hashes, opts]
    exact valid.hashes.append more
  · change final.numComputedTokens ≤ r.numComputedTokens
    omega
  · change r.kv.numCachedBlocks * pool.blockSize ≤ final.numComputedTokens
    omega
  · change final.numComputedTokens ≤ (final.tokens ++ final.specTokens).length
    rw [length_append]
    omega
  · change (final.tokens ++ final.specTokens).take final.numComputedTokens =
      (r.tokens ++ r.specTokens).take final.numComputedTokens
    rw [nComputed, take_append_of_le_length (by omega), ← length,
      ← prefix_iff_eq_take.mp front, length]
    change _ = (r.tokens ++ r.specTokens).take (r.tokens.length + accepted)
    rw [take_length_add_append]

/-- Some token of the request has not been computed yet. -/
def Request.Due (r : Request M) : Prop := r.numComputedTokens < r.nTokens

variable {logits : List (List M.Logit)}

namespace Engine

variable {service : Service M} {known : Registration → Prop} {e : Engine M}

theorem continued_fields (cfg : EngineConfig) (r : Request M) :
    (lookupDrafts cfg r).deliver.id = r.id ∧ (lookupDrafts cfg r).deliver.status = r.status ∧
      (lookupDrafts cfg r).deliver.tokens = r.tokens ∧
      (lookupDrafts cfg r).deliver.numComputedTokens = r.numComputedTokens ∧
      (lookupDrafts cfg r).deliver.kv = r.kv ∧ (lookupDrafts cfg r).deliver.opts = r.opts ∧
      (lookupDrafts cfg r).deliver.blockHashes = r.blockHashes := by
  rw [Request.deliver_fields, lookupDrafts_fields]
  exact ⟨rfl, rfl, rfl, rfl, rfl, rfl, rfl⟩

/-- The rows of a request belong to its last token and to the drafts it was just fed. -/
def OutputReady (service : Service M) (logits : List (List M.Logit))
    (turn : ScheduledRequest × Option Nat) (r : Request M) : Prop :=
  r.isEmbedding = false → ∀ first, turn.2 = some first →
    turn.1.nSpec ≤ r.specTokens.length ∧ r.numComputedTokens = r.nTokens + turn.1.nSpec ∧
    (service.exact → (logits.drop first).take (turn.1.nSpec + 1) =
      Request.draftRows M.prefixLogits r.tokens (r.specTokens.take turn.1.nSpec))

/-- A request without rows has tokens left, and one with rows has a row behind its drafts. -/
def RowsDue (logits : List (List M.Logit)) (turn : ScheduledRequest × Option Nat)
    (r : Request M) : Prop :=
  r.isEmbedding = false → (turn.2 = none → r.Due) ∧ ∀ first, turn.2 = some first →
    turn.1.nSpec < ((logits.drop first).take (turn.1.nSpec + 1)).length

variable (inv : e.Invariant service known)

include inv

/-- After its turn a generation request has ended or has its last token left. -/
theorem Invariant.outputTurn (new : ∀ r, service.fresh r → r.New)
    {turn : ScheduledRequest × Option Nat}
    (ready : ∀ r ∈ e.sched.running, r.id = turn.1.req → OutputReady service logits turn r) :
    (e.outputTurn logits turn).1.Invariant service known ∧
      Confined e (e.outputTurn logits turn).1 turn.1.req ∧
      ((∀ r ∈ e.sched.running, r.id = turn.1.req → RowsDue logits turn r) →
        (e.outputTurn logits turn).2 = .ok () →
        ∀ r ∈ (e.outputTurn logits turn).1.sched.running, r.id = turn.1.req →
          r.Due ∨ (r.isEmbedding = true ∧ r ∈ e.sched.running)) ∧
      Pooled service known e (e.outputTurn logits turn).1 := by
  have accessed := inv.access turn.1.req
  rw [Engine.outputTurn]
  dsimp only
  split
  · rename_i absent
    exact ⟨accessed, .access e _,
      fun _ _ r member handle => (find_none absent member handle).elim, fun _ _ start => start⟩
  · rename_i r found
    obtain ⟨member, handle⟩ := Scheduler.mem_of_find found
    have running := inv.sched.not_finished (mem_append_left _ member)
    split
    · rename_i skipped
      rw [running, Bool.false_or] at skipped
      refine ⟨accessed, .access e _, ?_, fun _ _ start => start⟩
      intro _ _ other inside own
      rw [find_eq inv.sched.running_unique found inside own]
      exact .inr ⟨skipped, member⟩
    · rename_i chosen
      have generation : r.isEmbedding = false := by
        rw [running, Bool.false_or, Bool.not_eq_true] at chosen
        exact chosen
      split
      · rename_i missing
        refine ⟨accessed, .access e _, ?_, fun _ _ start => start⟩
        intro rows _ other inside own
        rw [find_eq inv.sched.running_unique found inside own]
        exact .inl ((rows r member handle generation).1 missing)
      · rename_i first row
        obtain ⟨drafts, computed, exact⟩ := ready r member handle generation first row
        have lives := inv.living (mem_append_left _ member)
        have limit : (e.access turn.1.req).cfg.maxModelLen = service.cfg.maxModelLen :=
          congrArg EngineConfig.maxModelLen inv.cfg
        -- a failed sampling leaves the request as it was
        have same : ∀ (next : Request M) (ended : RowsEnd),
            r.verify (e.access turn.1.req).cfg.maxModelLen
              ((logits.drop first).take (turn.1.nSpec + 1)) turn.1.nSpec = (next, ended) →
            (∀ stop, ended ≠ .ofStop stop) →
            ((e.access turn.1.req).store next).Invariant service known ∧
              Confined e ((e.access turn.1.req).store next) turn.1.req := by
          intro next ended shape rejected
          have unmoved := Request.verify_failed (lives.draftable new) (by rw [shape]; exact rejected)
          rw [shape] at unmoved
          dsimp only at unmoved
          rw [unmoved]
          exact ⟨accessed.store member rfl (inv.sched.running r member) lives
            (fun rest layout => ⟨layout, fun exact => exact⟩), Confined.store handle⟩
        split
        · rename_i next message shape
          obtain ⟨kept, confined⟩ := same next _ shape (by intro stop; cases stop <;> simp [RowsEnd.ofStop])
          exact ⟨kept, confined, fun _ failed => (by cases failed), fun _ _ start => start⟩
        · rename_i next shape
          obtain ⟨kept, confined⟩ := same next _ shape (by intro stop; cases stop <;> simp [RowsEnd.ofStop])
          exact ⟨kept, confined, fun _ failed => (by cases failed), fun _ _ start => start⟩
        · rename_i next why shape
          rw [limit] at shape
          have verified := Request.verify_ok drafts computed
            (show _ = (next, RowsEnd.ofStop (some why)) from shape)
          have kv : next.kv = r.kv := by rw [verified.fields]
          have status : next.status = r.status := by rw [verified.fields]
          obtain ⟨final, running, _⟩ := accessed.finish (mem_append_left _ member)
            (show next.id = r.id by rw [verified.fields]) kv status
            (fun last content => Service.Ended.stop lives generation drafts computed exact shape
              content)
          refine ⟨final, ⟨?_, ?_⟩, ?_, accessed.finish_pooled (mem_append_left _ member) kv status _ _ _⟩
          · intro other remains _
            rw [running] at remains
            exact (Keyed.mem_remove.mp remains).1
          · rw [final.cfg, inv.cfg]
          · intro _ _ other remains own
            rw [running] at remains
            exact ((Keyed.mem_remove.mp remains).2 (own.trans handle.symm)).elim
        · rename_i next shape
          rw [limit] at shape
          have verified := Request.verify_ok drafts computed
            (show _ = (next, RowsEnd.ofStop none) from shape)
          have goes : service.Lives (lookupDrafts service.cfg next).deliver :=
            .sample lives generation drafts computed exact shape
          obtain ⟨id, status, tokens, count, kv, opts, hashes⟩ := continued_fields service.cfg next
          have fields := verified.fields
          rw [show (e.access turn.1.req).cfg = service.cfg from inv.cfg]
          have sameId : (lookupDrafts service.cfg next).deliver.id = r.id := by
            rw [id, fields]
          refine ⟨accessed.store member sameId ?_ goes ?_, Confined.store (sameId.trans handle), ?_,
            fun _ _ start => start⟩
          · rw [status, fields]
            exact inv.sched.running r member
          · exact fun rest layout => verified.layout computed drafts tokens count
              (by rw [kv, fields]) (by rw [opts, fields]) (by rw [hashes, fields]) rest layout
          intro rows _ other remains own
          rcases Scheduler.mem_store.mp remains with ⟨_, different⟩ | ⟨new, _⟩
          · exact (different (by rw [own, ← handle]; exact sameId.symm)).elim
          left
          have last := (Request.verify_next drafts computed shape).1
            ((rows r member handle generation).2 first row)
          have length : (lookupDrafts service.cfg next).deliver.nTokens = next.nTokens :=
            congrArg List.length tokens
          rw [new]
          change (lookupDrafts service.cfg next).deliver.numComputedTokens < _
          omega

theorem Invariant.outputTurns (new : ∀ r, service.fresh r → r.New)
    (turns : List (ScheduledRequest × Option Nat))
    (unique : (turns.map (fun turn => turn.1.req)).Nodup)
    (ready : ∀ turn ∈ turns, ∀ r ∈ e.sched.running, r.id = turn.1.req →
      OutputReady service logits turn r) :
    (Engine.outputTurns logits turns e).1.Invariant service known ∧
      ((∀ turn ∈ turns, ∀ r ∈ e.sched.running, r.id = turn.1.req → RowsDue logits turn r) →
        (Engine.outputTurns logits turns e).2 = .ok () →
        ∀ r ∈ (Engine.outputTurns logits turns e).1.sched.running, r.Due ∨ r ∈ e.sched.running ∧
          (r.isEmbedding = true ∨ r.id ∉ turns.map (fun turn => turn.1.req))) ∧
      Pooled service known e (Engine.outputTurns logits turns e).1 := by
  induction turns generalizing e with
  | nil =>
    exact ⟨inv, fun _ _ r member => .inr ⟨member, .inr (by simp)⟩, fun _ _ start => start⟩
  | cons turn turns ih =>
    rw [map_cons, nodup_cons] at unique
    obtain ⟨first, confined, settled, pooled⟩ := inv.outputTurn new (ready turn mem_cons_self)
    have apart := later_unchanged confined.others unique.1
    rw [Engine.outputTurns]
    generalize e.outputTurn logits turn = result at first confined settled pooled apart
    obtain ⟨next, outcome⟩ := result
    cases outcome with
    | threw message => exact ⟨first, nofun, pooled⟩
    | aborted => exact ⟨first, nofun, pooled⟩
    | ok value =>
      dsimp only at first confined settled pooled apart ⊢
      obtain ⟨final, kept, later⟩ := ih first unique.2 (fun later inside r member handle =>
        ready later (mem_cons_of_mem _ inside) r (apart later inside r member handle) handle)
      refine ⟨final, ?_, pooled.trans later⟩
      intro rows success r member
      rcases kept (fun later inside r member handle => rows later (mem_cons_of_mem _ inside) r
          (apart later inside r member handle) handle) success r member with due | ⟨here, rest⟩
      · exact .inl due
      by_cases handle : r.id = turn.1.req
      · rcases settled (rows turn mem_cons_self) rfl r here handle with due | ⟨kind, old⟩
        · exact .inl due
        · exact .inr ⟨old, .inl kind⟩
      · refine .inr ⟨confined.others r here handle, rest.imp_right fun absent => ?_⟩
        rw [map_cons, mem_cons, not_or]
        exact ⟨handle, absent⟩

/-- Drafts are stored behind a request that has one token left to compute. -/
theorem Invariant.draftTurn (drafts : Nat → List Token) (entry : ScheduledRequest) :
    (e.draftTurn drafts entry).Invariant service known := by
  have accessed := inv.access entry.req
  rw [Engine.draftTurn]
  split
  · exact accessed
  rename_i r found
  obtain ⟨member, handle⟩ := Scheduler.mem_of_find found
  split
  · rename_i chosen
    simp only [Bool.and_eq_true, Bool.not_eq_true', beq_iff_eq] at chosen
    obtain ⟨⟨⟨_, generation⟩, free⟩, last⟩ := chosen
    have lives := inv.living (mem_append_left _ member)
    refine accessed.store member rfl (inv.sched.running r member)
      (.draft lives generation (Option.isNone_iff_eq_none.mp free) _) ?_
    intro rest layout
    have valid := layout.valid _ mem_cons_self
    have short : r.numComputedTokens ≤ r.tokens.length := by
      change r.numComputedTokens + 1 = r.tokens.length at last
      omega
    refine layout.revise ⟨rfl, rfl, valid.hashes, prefix_refl _, Nat.le_refl _,
      valid.cached, ?_, ?_⟩
    · change r.numComputedTokens ≤ (r.tokens ++ drafts r.id).length
      rw [length_append]
      omega
    · change (r.tokens ++ drafts r.id).take r.numComputedTokens =
        (r.tokens ++ r.specTokens).take r.numComputedTokens
      rw [take_append_of_le_length short, take_append_of_le_length short]
  · exact accessed

theorem Invariant.draftTurns (drafts : Nat → List Token) (entries : List ScheduledRequest) :
    (entries.foldl (Engine.draftTurn drafts) e).Invariant service known :=
  foldlRecOn entries _ inv fun _ inv entry _ => inv.draftTurn drafts entry

end Engine

end Iian
