import Iian.SchedulerOps
import Iian.Service

/- What holds of the engine between any two operations on its requests. -/
namespace Iian

open List Lib

variable {M : Model}

variable {r : Request M}

namespace Request

theorem New.fields (new : r.New) :
    r.status = .waiting ∧ r.kv = {} ∧ r.numComputedTokens = 0 ∧ r.blockHashes = [] ∧
      r.specTokens = [] ∧ r.out = [] := by
  rw [New] at new
  rw [new]
  exact ⟨rfl, rfl, rfl, rfl, rfl, rfl⟩

/-- What a client asks for besides the tokens. -/
def asked (r : Request M) : Nat × RequestOptions × Bool × Pooling × Bool :=
  (r.id, r.opts, r.isEmbedding, r.pooling, r.normalize)

theorem deliver_fields (r : Request M) :
    r.deliver = { r with
      textSent := r.deliver.textSent
      pendingTokens := r.deliver.pendingTokens
      pendingLogprobs := r.deliver.pendingLogprobs
      out := r.deliver.out } := by
  unfold deliver
  dsimp only
  split <;> rfl

end Request

theorem Engine.lookupDrafts_fields (cfg : EngineConfig) (r : Request M) :
    lookupDrafts cfg r = { r with specTokens := (lookupDrafts cfg r).specTokens } := by
  unfold lookupDrafts
  split
  · split <;> rfl
  · rfl

theorem Engine.lookupDrafts_draftable {cfg : EngineConfig} (generation : r.isEmbedding = false)
    (blank : r.specTokens = []) : (lookupDrafts cfg r).Draftable := by
  intro drafted
  rw [lookupDrafts_fields]
  refine ⟨generation, ?_⟩
  unfold lookupDrafts at drafted
  split at drafted
  · split at drafted
    · rename_i free
      exact Option.isNone_iff_eq_none.mp free.2
    · exact (drafted blank).elim
  · exact (drafted blank).elim

namespace Service

variable {service : Service M} {last : Request M}

/-- What is asked of a service: new requests are blank, rows are exact only without
collisions, and pooling depends on the contents of a request alone. -/
structure Sound (service : Service M) (known : Registration → Prop) : Prop where
  new : ∀ r, service.fresh r → r.New
  free : service.exact → CollisionFree service.cfg.blockSize known
  steady : ∀ r next start, next.content = r.content → service.steady r start →
    service.steady next start

theorem Lives.draftable (new : ∀ r, service.fresh r → r.New) (lives : service.Lives r) :
    r.Draftable := by
  induction lives with
  | submit fresh =>
    obtain ⟨_, _, _, _, blank, _⟩ := (new _ fresh).fields
    exact fun drafted => (drafted blank).elim
  | @place r next _ same ih =>
    have drafts : next.specTokens = r.specTokens := congrArg (fun r => r.specTokens) same
    have kind : next.isEmbedding = r.isEmbedding := congrArg (fun r => r.isEmbedding) same
    have grammar : next.grammar = r.grammar := congrArg (fun r => r.grammar) same
    unfold Request.Draftable
    rw [drafts, kind, grammar]
    exact ih
  | @sample r next nSpec rows lives generation drafts computed exact verified ih =>
    have facts := Request.verify_ok drafts computed
      (show _ = (next, RowsEnd.ofStop none) from verified)
    have blank : next.specTokens = [] := by rw [facts.fields]
    have kind : next.isEmbedding = false := by
      rw [facts.fields]
      exact generation
    rw [Request.deliver_fields]
    exact Engine.lookupDrafts_draftable kind blank
  | draft lives generation free tokens => exact fun _ => ⟨generation, free⟩
  | pool lives embedding steady some inside exact ih => exact ih

/-- What holds of the generation state of a new request and is kept by every turn of the row
loop holds as long as the request lives. -/
theorem Lives.keeps {keeps : Gen M → Prop} (fresh : ∀ r, service.fresh r → keeps r.toGen)
    (one : ∀ {gen next : Gen M} {row sampled stop},
      gen.step service.cfg.maxModelLen row = .ok (sampled, next, stop) → keeps gen → keeps next)
    (lives : service.Lives r) : keeps r.toGen := by
  induction lives with
  | submit submitted => exact fresh _ submitted
  | @place r next _ same ih =>
    rw [show next.toGen = r.toGen from congrArg (fun r => r.toGen) same]
    exact ih
  | @sample r next nSpec rows _ _ _ _ _ verified ih =>
    have kept := @Request.verify_keeps M _ (fun r => keeps r.toGen) one (fun _ kept => kept)
      rows nSpec r ih
    rw [verified] at kept
    rw [Request.deliver_fields, Engine.lookupDrafts_fields]
    exact kept
  | draft _ _ _ _ ih => exact ih
  | pool _ _ _ _ _ _ ih => exact ih

/-- Whatever happens to a request, it stays the one that was asked for, and an embedding
request keeps its tokens. -/
theorem Lives.origin (lives : service.Lives r) :
    ∃ start, service.fresh start ∧ start.asked = r.asked ∧
      (r.isEmbedding = true → start.toGen = r.toGen) := by
  induction lives with
  | @submit r fresh => exact ⟨r, fresh, rfl, fun _ => rfl⟩
  | @place r next _ same ih =>
    obtain ⟨start, fresh, asked, gen⟩ := ih
    have old : next.asked = r.asked := congrArg (fun r => r.asked) same
    have kept : next.toGen = r.toGen := congrArg (fun r => r.toGen) same
    have kind : next.isEmbedding = r.isEmbedding := congrArg (fun r => r.isEmbedding) same
    rw [old, kept, kind]
    exact ⟨start, fresh, asked, gen⟩
  | @sample r next nSpec rows _ generation drafts computed _ verified ih =>
    obtain ⟨start, fresh, asked, _⟩ := ih
    have fields := (Request.verify_ok drafts computed
      (show _ = (next, RowsEnd.ofStop none) from verified)).fields
    rw [Request.deliver_fields, Engine.lookupDrafts_fields, fields]
    refine ⟨start, fresh, asked, fun embedding => ?_⟩
    rw [show r.isEmbedding = true from embedding] at generation
    cases generation
  | draft _ _ _ _ ih => exact ih
  | pool _ _ _ _ _ _ ih => exact ih

/-- How a request has left the engine: turns of the row loop at most, then it was closed. -/
theorem Ended.left (ended : service.Ended last) :
    ∃ (r next : Request M) (status : RequestStatus) (why : FinishReason) (error : String),
      service.Lives r ∧ next.asked = r.asked ∧ next.out = r.out ∧
      (∀ keeps : Gen M → Prop, (∀ {gen next : Gen M} {row sampled stop},
          gen.step service.cfg.maxModelLen row = .ok (sampled, next, stop) →
            keeps gen → keeps next) → keeps r.toGen → keeps next.toGen) ∧
      (r.isEmbedding = true → next.tokens = r.tokens) ∧
      (why = .abort ∨ why = .error ∨ error = "") ∧
      last.content = (next.close status why error).content := by
  cases ended with
  | cut lives kind same =>
    exact ⟨_, _, _, _, _, lives, rfl, rfl, fun _ _ kept => kept, fun _ => rfl, kind.imp_right .inl,
      same⟩
  | @stop r next _ nSpec rows why lives generation drafts computed _ verified same =>
    have fields := (Request.verify_ok drafts computed
      (show _ = (next, RowsEnd.ofStop (some why)) from verified)).fields
    refine ⟨r, next, _, _, _, lives, ?_, ?_, ?_, ?_, .inr (.inr rfl), same⟩
    · rw [fields]
      rfl
    · rw [fields]
    · intro keeps one kept
      have later := @Request.verify_keeps M _ (fun r => keeps r.toGen) one (fun _ kept => kept)
        rows nSpec r kept
      rw [verified] at later
      exact later
    · intro embedding
      rw [embedding] at generation
      cases generation
  | @embedded r _ _ rows lives _ _ _ _ _ same =>
    exact ⟨r, (r.poolRows rows).embed, _, _, _, lives, rfl, rfl, fun _ _ kept => kept, fun _ => rfl,
      .inr (.inr rfl), same⟩

/-- What the turns of the row loop keep, and the end of the text, holds to the last. -/
theorem Ended.keeps {keeps : Gen M → Prop} (fresh : ∀ r, service.fresh r → keeps r.toGen)
    (one : ∀ {gen next : Gen M} {row sampled stop},
      gen.step service.cfg.maxModelLen row = .ok (sampled, next, stop) → keeps gen → keeps next)
    (flush : ∀ {gen : Gen M}, keeps gen → keeps gen.flush) (ended : service.Ended last) :
    keeps last.toGen := by
  obtain ⟨r, next, status, why, error, lives, _, _, later, _, _, same⟩ := ended.left
  rw [show last.toGen = next.flush from congrArg (fun r => r.toGen) same]
  exact flush (later keeps one (lives.keeps fresh one))

theorem Ended.origin (ended : service.Ended last) :
    ∃ start, service.fresh start ∧ start.asked = last.asked ∧
      (last.isEmbedding = true → start.tokens = last.tokens) := by
  obtain ⟨r, next, status, why, error, lives, asked, _, _, tokens, _, same⟩ := ended.left
  obtain ⟨start, fresh, old, kept⟩ := lives.origin
  have now : last.asked = next.asked := congrArg (fun r => r.asked) same
  have here : last.tokens = next.tokens := congrArg (fun r => r.tokens) same
  have kind : last.isEmbedding = r.isEmbedding :=
    congrArg (fun asked => asked.2.2.1) (now.trans asked)
  refine ⟨start, fresh, old.trans (now.trans asked).symm, fun embedding => ?_⟩
  rw [kind] at embedding
  rw [here, tokens embedding, kept embedding]

end Service

/-- The state of the engine, apart from the log of its accesses. -/
structure Engine.Invariant (service : Service M) (known : Registration → Prop) (e : Engine M) :
    Prop where
  cfg : e.cfg = service.cfg
  sched : e.sched.Valid e.cells known
  blockSize : e.sched.pool.blockSize = service.cfg.blockSize
  exact : service.exact → e.sched.Exact e.cells
  unique : e.issued.Nodup
  bounded : ∀ id ∈ e.issued, id < e.nextId
  held : ((e.newRequests ++ e.sched.allRequests ++ e.done).map Request.id).Perm e.issued
  new : ∀ r ∈ e.newRequests, r.New
  lives : ∀ r ∈ e.newRequests ++ e.sched.allRequests, service.Lives r
  ended : ∀ r ∈ e.done, service.Ended r

namespace Engine

variable {service : Service M} {known : Registration → Prop} {e : Engine M}

section

variable (inv : e.Invariant service known) {next : Request M}
include inv

theorem Invariant.access (id : Nat) : (e.access id).Invariant service known :=
  ⟨inv.cfg, inv.sched, inv.blockSize, inv.exact, inv.unique, inv.bounded, inv.held, inv.new,
    inv.lives, inv.ended⟩

theorem Invariant.living (member : r ∈ e.sched.allRequests) : service.Lives r :=
  inv.lives r (mem_append_right _ member)

theorem Invariant.ids_unique :
    ((e.newRequests ++ e.sched.allRequests ++ e.done).map Request.id).Nodup :=
  inv.held.nodup_iff.mpr inv.unique

/-- Another scheduler whose requests are the old ones, rescheduled. -/
theorem Invariant.reschedule {sched : Scheduler M} {cells : Cells M}
    (valid : sched.Valid cells known) (blockSize : sched.pool.blockSize = e.sched.pool.blockSize)
    (exact : service.exact → sched.Exact cells)
    (content : (sched.allRequests.map Request.content).Perm
      (e.sched.allRequests.map Request.content)) :
    ({ e with sched := sched, cells := cells } : Engine M).Invariant service known := by
  have same : (sched.allRequests.map Request.id).Perm (e.sched.allRequests.map Request.id) := by
    have ids := content.map Request.id
    rw [map_map, map_map] at ids
    exact ids
  have ids : ((e.newRequests ++ sched.allRequests ++ e.done).map Request.id).Perm
      ((e.newRequests ++ e.sched.allRequests ++ e.done).map Request.id) := by
    rw [map_append, map_append, map_append, map_append]
    exact (same.append_left _).append_right _
  refine ⟨inv.cfg, valid, blockSize.trans inv.blockSize, exact, inv.unique, inv.bounded,
    ids.trans inv.held, inv.new, ?_, inv.ended⟩
  · intro r member
    rcases mem_append.mp member with fresh | live
    · exact inv.lives r (mem_append_left _ fresh)
    · obtain ⟨old, there, same⟩ := mem_map.mp (content.mem_iff.mp (mem_map.mpr ⟨r, live, rfl⟩))
      exact .place (inv.living there) same.symm

/-- Writing a running request. -/
theorem Invariant.store (member : r ∈ e.sched.running) (same : next.id = r.id)
    (status : next.status = .running) (lives : service.Lives next)
    (layout : ∀ rest, Layout e.sched.pool e.cells (r.seat :: rest) known →
      Layout e.sched.pool e.cells (next.seat :: rest) known ∧
        (Exact e.sched.pool e.cells (r.seat :: rest) →
          Exact e.sched.pool e.cells (next.seat :: rest))) :
    (e.store next).Invariant service known := by
  have changes := Scheduler.store_changes inv.sched.unique member e.sched.pool next same
  have valid : (e.sched.store next).Valid e.cells known :=
    inv.sched.store member same status (fun rest old => (layout rest old).1)
  have ids : ((e.newRequests ++ (e.sched.store next).allRequests ++ e.done).map Request.id).Perm
      ((e.newRequests ++ e.sched.allRequests ++ e.done).map Request.id) := by
    rw [map_append, map_append, map_append, map_append]
    exact ((changes.map same).append_left _).append_right _
  refine ⟨inv.cfg, valid, inv.blockSize, ?_, inv.unique, inv.bounded, ids.trans inv.held, inv.new,
    ?_, inv.ended⟩
  · intro sound
    exact changes.exact_next ((layout _ (changes.layout inv.sched.layout)).2
      (changes.exact (inv.exact sound)))
  · intro other inside
    rcases mem_append.mp inside with fresh | live
    · exact inv.lives other (mem_append_left _ fresh)
    rcases mem_cons.mp (changes.after.mem_iff.mp live) with new | old
    · rw [new]
      exact lives
    · exact inv.living (changes.before.mem_iff.mpr (mem_cons_of_mem _ old))

/-- A request leaves the engine. -/
theorem Invariant.finish (member : r ∈ e.sched.allRequests) (same : next.id = r.id)
    (kv : next.kv = r.kv) (active : next.status = r.status) {status : RequestStatus}
    {why : FinishReason} {error : String}
    (ended : ∀ last : Request M, last.content = (next.close status why error).content →
      service.Ended last) :
    (e.finish next status why error).Invariant service known ∧
      (e.finish next status why error).sched.running =
        Keyed.remove Request.id r.id e.sched.running ∧
      e.sched.allRequests.Perm (r :: (e.finish next status why error).sched.allRequests) := by
  have going : next.isFinished = false := by
    have old := inv.sched.not_finished member
    rw [Request.isFinished] at old ⊢
    rw [active]
    exact old
  obtain ⟨last, released⟩ := inv.sched.finishRequest member
    (show (next.close status why error).id = r.id from same)
    (show (next.close status why error).kv = r.kv from kv) status
  rw [Engine.finish, going, if_neg (by decide)]
  generalize e.sched.finishRequest (next.close status why error) status = result at last released
  obtain ⟨gone, sched⟩ := result
  dsimp only at last released ⊢
  have ids : ((e.newRequests ++ sched.allRequests ++ (e.done ++ [gone])).map Request.id).Perm
      ((e.newRequests ++ e.sched.allRequests ++ e.done).map Request.id) := by
    have goneId : gone.id = r.id := by
      rw [last]
      exact same
    have split := (released.split.map Request.id).symm
    rw [map_cons, ← goneId] at split
    simp only [map_append, map_singleton, append_assoc]
    refine List.Perm.append_left _ (.trans ?_ (split.append_right _))
    rw [← append_assoc]
    exact perm_append_comm
  refine ⟨⟨inv.cfg, released.valid, released.blockSize.trans inv.blockSize,
    fun sound => released.exact (inv.exact sound), inv.unique, inv.bounded, ids.trans inv.held,
    inv.new, ?_, ?_⟩, released.running, released.split⟩
  · intro other inside
    rcases mem_append.mp inside with fresh | live
    · exact inv.lives other (mem_append_left _ fresh)
    · exact inv.living (released.split.mem_iff.mpr (mem_cons_of_mem _ live))
  · refine forall_mem_append.mpr ⟨inv.ended, forall_mem_singleton.mpr ?_⟩
    rw [last]
    exact ended _ rfl

theorem Invariant.finish_pool (member : r ∈ e.sched.allRequests) (kv : next.kv = r.kv)
    (active : next.status = r.status) (status : RequestStatus) (why : FinishReason)
    (error : String) :
    (e.finish next status why error).sched.pool = (e.sched.pool.freeState r.kv).2 := by
  have going : next.isFinished = false := by
    have old := inv.sched.not_finished member
    rw [Request.isFinished] at old ⊢
    rw [active]
    exact old
  rw [Engine.finish, going, if_neg (by decide), Scheduler.finishRequest_eq inv.sched.unique]
  change (e.sched.pool.freeState next.kv).2 = _
  rw [kv]

end

/-- What is kept by all that the engine does to its block pool: schedules, the commits of batches
and the releases of requests. -/
structure PoolRule (service : Service M) (known : Registration → Prop) (holds : BlockPool → Prop) :
    Prop where
  schedule : ∀ {e : Engine M}, e.Invariant service known → e.sched.Knows known →
    holds e.sched.pool → holds e.sched.schedule.2.pool
  commits : ∀ {e : Engine M} {turns : List (Batch.Turn M)}, e.Invariant service known →
    e.sched.Knows known → Batch.Turns e.sched turns → holds e.sched.pool →
    holds (e.sched.updateAfterStep (turns.map Prod.snd)).pool
  release : ∀ {e : Engine M} {r : Request M}, e.Invariant service known → r ∈ e.sched.allRequests →
    holds e.sched.pool → holds (e.sched.pool.freeState r.kv).2

/-- Whatever such a rule keeps still holds of the pool of `next`. -/
def Pooled (service : Service M) (known : Registration → Prop) (e next : Engine M) : Prop :=
  ∀ holds, PoolRule service known holds → holds e.sched.pool → holds next.sched.pool

theorem Pooled.trans {middle next : Engine M} (first : Pooled service known e middle)
    (second : Pooled service known middle next) : Pooled service known e next :=
  fun holds rule start => second holds rule (first holds rule start)

theorem Invariant.finish_pooled (inv : e.Invariant service known) {next : Request M}
    (member : r ∈ e.sched.allRequests) (kv : next.kv = r.kv) (active : next.status = r.status)
    (status : RequestStatus) (why : FinishReason) (error : String) :
    Pooled service known e (e.finish next status why error) := by
  intro holds rule start
  rw [inv.finish_pool member kv active]
  exact rule.release inv member start

end Engine

end Iian
