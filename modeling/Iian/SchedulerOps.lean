import Iian.BatchWrites

/- The scheduler between two schedules: new requests, the commit after a step, requests
that change or leave. -/
namespace Iian

open List Lib

variable {M : Model}

variable {r : Request M}

namespace Scheduler

variable {s : Scheduler M} {cells : Cells M} {known : Registration → Prop} {next : Request M}

theorem Valid.running_unique (valid : s.Valid cells known) :
    (s.running.map Request.id).Nodup := by
  have unique := valid.unique
  rw [allRequests, map_append, nodup_append] at unique
  exact unique.1

theorem Valid.find (valid : s.Valid cells known) (member : r ∈ s.running) : s.find r.id = some r :=
  Keyed.find_of_mem valid.running_unique member

theorem mem_of_find {id : Nat} (found : s.find id = some r) : r ∈ s.running ∧ r.id = id := by
  refine ⟨mem_of_find?_eq_some found, ?_⟩
  simpa using find?_some found

theorem Valid.not_finished (valid : s.Valid cells known) (member : r ∈ s.allRequests) :
    r.isFinished = false := by
  rcases mem_append.mp member with running | waiting
  · rw [Request.isFinished, valid.running r running]
  · rcases (valid.waiting r waiting).status with status | status <;> rw [Request.isFinished, status]

theorem mem_store {other : Request M} :
    other ∈ (s.store r).running ↔
      (other ∈ s.running ∧ other.id ≠ r.id) ∨ (other = r ∧ ∃ old ∈ s.running, old.id = r.id) := by
  rw [store, Keyed.replace, mem_map]
  constructor
  · rintro ⟨old, member, same⟩
    split at same
    · rename_i equal
      exact .inr ⟨same.symm, old, member, equal⟩
    · rename_i different
      rw [← same]
      exact .inl ⟨member, different⟩
  · rintro (⟨member, different⟩ | ⟨same, old, member, equal⟩)
    · exact ⟨other, member, if_neg different⟩
    · exact ⟨old, member, by rw [if_pos equal, same]⟩

/-- A request of the scheduler is rewritten in place. -/
theorem Valid.store (valid : s.Valid cells known) (member : r ∈ s.running) (same : next.id = r.id)
    (status : next.status = .running) {pool : BlockPool}
    (layout : ∀ rest, Layout s.pool cells (r.seat :: rest) known →
      Layout pool cells (next.seat :: rest) known) :
    ({ s with pool := pool }.store next).Valid cells known := by
  have changes := store_changes valid.unique member pool next same
  refine ⟨?_, ?_, valid.waiting, changes.layout_next (layout _ (changes.layout valid.layout))⟩
  · exact (changes.map same).nodup_iff.mpr valid.unique
  intro other inside
  rcases mem_store.mp inside with ⟨old, _⟩ | ⟨new, _⟩
  · exact valid.running other old
  · rw [new]
    exact status

theorem finishRequest_eq (unique : (s.allRequests.map Request.id).Nodup) (next : Request M)
    (status : RequestStatus) :
    s.finishRequest next status =
      ({ next with status := status, kv := (s.pool.freeState next.kv).1 },
        { s with
          pool := (s.pool.freeState next.kv).2
          running := Keyed.remove Request.id next.id s.running
          waiting := Keyed.remove Request.id next.id s.waiting }) := by
  rw [allRequests, map_append, nodup_append] at unique
  unfold finishRequest
  dsimp only
  split
  · rename_i present
    obtain ⟨old, inside, same⟩ := any_eq_true.mp present
    rw [decide_eq_true_eq] at same
    have absent : next.id ∉ s.waiting.map Request.id := by
      intro there
      exact unique.2.2 _ (mem_map.mpr ⟨old, inside, same⟩) _ there rfl
    rw [Keyed.remove_of_absent absent]
  · rename_i missing
    have absent : next.id ∉ s.running.map Request.id := by
      intro there
      obtain ⟨old, inside, same⟩ := mem_map.mp there
      exact missing (any_eq_true.mpr ⟨old, inside, by simpa using same⟩)
    rw [Keyed.remove_of_absent absent]

/-- A request has left the scheduler. -/
structure Released (s next : Scheduler M) (r : Request M) (cells : Cells M)
    (known : Registration → Prop) : Prop where
  valid : next.Valid cells known
  split : s.allRequests.Perm (r :: next.allRequests)
  running : next.running = Keyed.remove Request.id r.id s.running
  blockSize : next.pool.blockSize = s.pool.blockSize
  cfg : next.cfg = s.cfg
  exact : s.Exact cells → next.Exact cells

theorem Valid.finishRequest (valid : s.Valid cells known) (member : r ∈ s.allRequests)
    (same : next.id = r.id) (kv : next.kv = r.kv) (status : RequestStatus) :
    (s.finishRequest next status).1 = { next with status := status, kv := {} } ∧
      Released s (s.finishRequest next status).2 r cells known := by
  have split := Keyed.perm_cons_remove valid.unique member
  have rest : Keyed.remove Request.id r.id s.allRequests =
      Keyed.remove Request.id r.id s.running ++ Keyed.remove Request.id r.id s.waiting :=
    filter_append _ _
  rw [rest] at split
  obtain ⟨fresh, shape, blockSize, layout, exact⟩ :=
    (valid.layout.perm (split.map Request.seat)).release
  change s.pool.freeState r.kv = _ at shape
  rw [finishRequest_eq valid.unique, kv, shape, same]
  refine ⟨rfl, ⟨?_, ?_, ?_, layout⟩, split, rfl, blockSize, rfl, ?_⟩
  · have ids := (split.map Request.id).nodup_iff.mp valid.unique
    exact (nodup_cons.mp ids).2
  · intro other inside
    exact valid.running other (Keyed.mem_remove.mp inside).1
  · intro other inside
    exact valid.waiting other (Keyed.mem_remove.mp inside).1
  · intro sound
    exact exact (sound.perm (split.map Request.seat))

theorem Valid.addRequest (valid : s.Valid cells known) (fresh : r.id ∉ s.allRequests.map Request.id)
    (kv : r.kv = {}) (computed : r.numComputedTokens = 0) (hashes : r.blockHashes = []) :
    (s.addRequest r).Valid cells known ∧
      (s.addRequest r).allRequests.Perm ({ r with status := .waiting } :: s.allRequests) ∧
      (s.addRequest r).running = s.running ∧ (s.addRequest r).pool = s.pool ∧
      (s.addRequest r).cfg = s.cfg ∧ (s.Exact cells → (s.addRequest r).Exact cells) := by
  have queue : (s.addRequest r).waiting.Perm ({ r with status := .waiting } :: s.waiting) := by
    unfold Scheduler.addRequest
    cases s.cfg.policy with
    | fcfs => exact perm_append_comm
    | priority => exact insertWaiting_perm _ _
  have running : (s.addRequest r).running = s.running := by
    unfold Scheduler.addRequest
    cases s.cfg.policy <;> rfl
  have pool : (s.addRequest r).pool = s.pool := by
    unfold Scheduler.addRequest
    cases s.cfg.policy <;> rfl
  have cfg : (s.addRequest r).cfg = s.cfg := by
    unfold Scheduler.addRequest
    cases policy : s.cfg.policy <;> rfl
  have all : (s.addRequest r).allRequests.Perm ({ r with status := .waiting } :: s.allRequests) := by
    rw [allRequests, running]
    exact (queue.append_left _).trans perm_middle
  have seats := all.map Request.seat
  refine ⟨⟨?_, ?_, ?_, ?_⟩, all, running, pool, cfg, ?_⟩
  · refine (all.map Request.id).nodup_iff.mpr ?_
    exact nodup_cons.mpr ⟨fresh, valid.unique⟩
  · rw [running]
    exact valid.running
  · intro other inside
    rcases mem_cons.mp (queue.mem_iff.mp inside) with new | old
    · rw [new]
      exact ⟨.inl rfl, kv, computed⟩
    · exact valid.waiting other old
  · rw [pool]
    refine (valid.layout.insert kv computed ?_).perm seats.symm
    change HashesOf s.pool.blockSize r.opts.cacheSalt r.tokens r.blockHashes
    rw [hashes]
    exact HashesOf.nil _ _ _
  · intro exact
    rw [Scheduler.Exact, pool]
    exact Iian.Exact.perm (Layout.insertExact exact kv) seats.symm

/-- The scheduler between the computation of a step and its commit: what the entries feed
is in the cells, and the requests do not count it yet. -/
structure Fed (s : Scheduler M) (cells : Cells M) (known : Registration → Prop)
    (entries : List ScheduledRequest) : Prop where
  unique : (s.allRequests.map Request.id).Nodup
  running : ∀ r ∈ s.running, r.status = .running
  waiting : ∀ r ∈ s.waiting, r.Queued
  layout : Layout s.pool cells (s.allRequests.map (Request.seatAfter entries)) known

/-- The commit of one request. -/
structure Commits (s next : Scheduler M) (r : Request M) (nNewTokens : Nat) : Prop where
  content : (next.allRequests.map Request.content).Perm (s.allRequests.map Request.content)
  blockSize : next.pool.blockSize = s.pool.blockSize
  cfg : next.cfg = s.cfg
  kept : ∀ other ∈ s.running, other.id ≠ r.id → other ∈ next.running
  done : ∃ fresh ∈ next.running, fresh.content = r.content ∧
    fresh.numComputedTokens = r.numComputedTokens + nNewTokens

theorem Fed.commit {entry : ScheduledRequest} {entries : List ScheduledRequest}
    (fed : s.Fed cells known (entry :: entries)) (knows : s.Knows known)
    (absent : entry.req ∉ entries.map ScheduledRequest.req) (member : r ∈ s.running)
    (handle : r.id = entry.req) :
    (s.commit entry).Fed cells known entries ∧
      Commits s (s.commit entry) r entry.nNewTokens ∧
      (Iian.Exact s.pool cells (s.allRequests.map (Request.seatAfter (entry :: entries))) →
        Iian.Exact (s.commit entry).pool cells
          ((s.commit entry).allRequests.map (Request.seatAfter entries))) := by
  have unique := fed.unique
  rw [allRequests, map_append, nodup_append] at unique
  have found : s.find entry.req = some r := by
    rw [← handle]
    exact Keyed.find_of_mem unique.1 member
  have active : r.isFinished = false := by
    rw [Request.isFinished, fed.running r member]
  have before := (store_changes fed.unique member s.pool r rfl).before.map
    (Request.seatAfter (entry :: entries))
  have seat : r.seatAfter (entry :: entries) =
      { r.seat with computed := r.numComputedTokens + entry.nNewTokens } := by
    rw [Request.seatAfter, fedCount, if_pos handle.symm,
      fedCount_absent (by rw [handle]; exact absent), Nat.add_zero]
  have others : ∀ other ∈ Keyed.remove Request.id r.id s.running ++ s.waiting,
      other.seatAfter (entry :: entries) = other.seatAfter entries := by
    intro other inside
    have different : entry.req ≠ other.id := by
      intro same
      rcases mem_append.mp inside with running | waiting
      · exact (Keyed.mem_remove.mp running).2 (same.symm.trans handle.symm)
      · exact unique.2.2 _ (mem_map.mpr ⟨r, member, rfl⟩) _
          (mem_map.mpr ⟨other, waiting, rfl⟩) (handle.trans same)
    rw [Request.seatAfter, fedCount, if_neg different, Nat.zero_add]
    rfl
  rw [map_cons, seat, map_congr_left others] at before
  obtain ⟨kv, fresh, shape, blockSize, layout, exact⟩ := (fed.layout.perm before).commit
    (knows r (mem_append_left _ member))
  dsimp only [Request.seat] at shape layout exact
  have commit : s.commit entry = { s with pool := fresh }.store (r.committed kv
      (updateHashes s.pool.blockSize r.blockHashes r.tokens r.opts.cacheSalt)
      (r.numComputedTokens + entry.nNewTokens)) := by
    change s.pool.cacheBlocks r.kv r.tokens (min _ r.nTokens) _ _ = _ at shape
    rw [Scheduler.commit, found]
    dsimp only
    rw [active, if_neg (by decide), shape]
  have changes := store_changes fed.unique member fresh (r.committed kv
    (updateHashes s.pool.blockSize r.blockHashes r.tokens r.opts.cacheSalt)
    (r.numComputedTokens + entry.nNewTokens)) rfl
  rw [← commit] at changes
  have pool : (s.commit entry).pool = fresh := by rw [commit]; rfl
  have after := changes.after.map (Request.seatAfter entries)
  have unfed : ∀ kv hashes computed, (r.committed kv hashes computed).seatAfter entries =
      (r.committed kv hashes computed).seat := by
    intro kv hashes computed
    rw [Request.seatAfter, fedCount_absent]
    · rfl
    · rw [show (r.committed kv hashes computed).id = entry.req from handle]
      exact absent
  rw [map_cons, unfed] at after
  refine ⟨⟨?_, ?_, ?_, ?_⟩, ⟨changes.map rfl, ?_, ?_, ?_, ?_⟩, ?_⟩
  · exact (changes.map rfl).nodup_iff.mpr fed.unique
  · intro other inside
    rw [commit] at inside
    rcases mem_store.mp inside with ⟨old, _⟩ | ⟨new, _⟩
    · exact fed.running other old
    · rw [new]
      exact fed.running r member
  · rw [commit]
    exact fed.waiting
  · rw [pool]
    exact layout.perm after.symm
  · rw [pool]
    exact blockSize
  · rw [commit]
    rfl
  · intro other inside different
    rw [commit]
    exact mem_store.mpr (.inl ⟨inside, different⟩)
  · rw [commit]
    exact ⟨_, mem_store.mpr (.inr ⟨rfl, r, member, rfl⟩), rfl, rfl⟩
  · intro sound
    rw [pool]
    exact (exact (sound.perm before)).perm after.symm

/-- `update_after_step` over the scheduled requests. -/
structure Committed (s next : Scheduler M) (turns : List (Batch.Turn M)) : Prop where
  content : (next.allRequests.map Request.content).Perm (s.allRequests.map Request.content)
  blockSize : next.pool.blockSize = s.pool.blockSize
  cfg : next.cfg = s.cfg
  kept : ∀ other ∈ s.running, (∀ turn ∈ turns, other.id ≠ turn.2.req) → other ∈ next.running
  done : ∀ turn ∈ turns, ∃ fresh ∈ next.running, fresh.content = turn.1.content ∧
    fresh.numComputedTokens = turn.1.numComputedTokens + turn.2.nNewTokens

theorem Fed.commits {turns : List (Batch.Turn M)}
    (fed : s.Fed cells known (turns.map Prod.snd)) (knows : s.Knows known)
    (unique : (turns.map (fun turn => turn.2.req)).Nodup)
    (running : ∀ turn ∈ turns, turn.1 ∈ s.running)
    (handle : ∀ turn ∈ turns, turn.1.id = turn.2.req) :
    (s.updateAfterStep (turns.map Prod.snd)).Valid cells known ∧
      Committed s (s.updateAfterStep (turns.map Prod.snd)) turns ∧
      (Iian.Exact s.pool cells (s.allRequests.map (Request.seatAfter (turns.map Prod.snd))) →
        (s.updateAfterStep (turns.map Prod.snd)).Exact cells) ∧
      -- what each commit keeps is kept by all of them
      ∀ holds : Scheduler M → Prop, (∀ {s : Scheduler M} {entry entries},
        s.Fed cells known (entry :: entries) → holds s → holds (s.commit entry)) →
        holds s → holds (s.updateAfterStep (turns.map Prod.snd)) := by
  induction turns generalizing s with
  | nil =>
    exact ⟨⟨fed.unique, fed.running, fed.waiting, fed.layout⟩,
      ⟨.refl _, rfl, rfl, fun other member _ => member, by simp⟩, fun exact => exact,
      fun _ _ start => start⟩
  | cons turn turns ih =>
    rw [map_cons, nodup_cons] at unique
    have here := handle turn mem_cons_self
    have absent : turn.2.req ∉ (turns.map Prod.snd).map ScheduledRequest.req := by
      rw [map_map]
      exact unique.1
    have others : ∀ other ∈ turns, other.2.req ≠ turn.2.req := by
      intro other inside same
      exact unique.1 (mem_map.mpr ⟨other, inside, same⟩)
    obtain ⟨first, commits, firstExact⟩ := fed.commit knows absent (running turn mem_cons_self) here
    obtain ⟨valid, committed, exact, kept⟩ := ih first (knows.congr commits.content) unique.2
      (fun other inside => commits.kept other.1 (running other (mem_cons_of_mem _ inside))
        (by
          rw [handle other (mem_cons_of_mem _ inside), here]
          exact others other inside))
      (fun other inside => handle other (mem_cons_of_mem _ inside))
    refine ⟨valid, ⟨committed.content.trans commits.content,
      committed.blockSize.trans commits.blockSize, committed.cfg.trans commits.cfg, ?_, ?_⟩,
      fun sound => exact (firstExact sound),
      fun holds rule start => kept holds rule (rule fed start)⟩
    · intro other member apart
      apply committed.kept other
      · apply commits.kept other member
        rw [here]
        exact apart turn mem_cons_self
      · intro later inside
        exact apart later (mem_cons_of_mem _ inside)
    · intro other inside
      rcases mem_cons.mp inside with same | later
      · rw [same]
        obtain ⟨fresh, member, content, computed⟩ := commits.done
        refine ⟨fresh, committed.kept fresh member ?_, content, computed⟩
        intro next after same
        have ids : fresh.id = turn.1.id := congrArg (fun r => r.id) content
        exact others next after (same.symm.trans (ids.trans here))
      · exact committed.done other later

end Scheduler

end Iian
