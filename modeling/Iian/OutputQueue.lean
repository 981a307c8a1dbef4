import Iian.EngineRun

/- Output queues: what a queue has received, by where its request is. -/
namespace Iian

open List

variable {M : Model}

/-- Exactly one chunk of a queue is terminal, and it is the last one. -/
def Terminated (chunks : List (OutputChunk M)) : Prop :=
  chunks.countP (fun chunk => chunk.finished) = 1 ∧
    chunks.getLast?.map (fun chunk => chunk.finished) = some true

instance (chunks : List (OutputChunk M)) : Decidable (Terminated chunks) :=
  inferInstanceAs (Decidable (_ ∧ _))

theorem not_terminated_nil : ¬ Terminated ([] : List (OutputChunk M)) := by
  rintro ⟨_, last⟩
  cases last

theorem terminated_concat {chunks : List (OutputChunk M)} {last : OutputChunk M}
    (streamed : ∀ chunk ∈ chunks, chunk.finished = false) (final : last.finished = true) :
    Terminated (chunks ++ [last]) := by
  have none : chunks.countP (fun chunk => chunk.finished) = 0 := by
    rw [countP_eq_zero]
    intro chunk member
    rw [streamed chunk member]
    decide
  refine ⟨?_, ?_⟩
  · rw [countP_append, none, countP_singleton, final]
    rfl
  · rw [getLast?_concat, Option.map_some, final]

variable {r : Request M} {id : Nat}

namespace Service

variable {service : Service M}

variable (new : ∀ r, service.fresh r → r.New)

include new

/-- A chunk of a request in the engine says nothing about its end. -/
theorem Lives.going (lives : service.Lives r) :
    ∀ chunk ∈ r.out, chunk.finished = false ∧ chunk.finishReason = .none ∧ chunk.error = "" := by
  induction lives with
  | @submit r fresh =>
    rw [show r.out = [] from by rw [new r fresh]]
    exact nofun
  | @place r next _ same ih =>
    rw [show next.out = r.out from congrArg (fun r => r.out) same]
    exact ih
  | @sample r next nSpec rows _ _ drafts computed _ verified ih =>
    have fields := (Request.verify_ok drafts computed
      (show _ = (next, RowsEnd.ofStop none) from verified)).fields
    have old : (Engine.lookupDrafts service.cfg next).out = r.out := by
      rw [Engine.lookupDrafts_fields, fields]
    unfold Request.deliver
    split
    · rw [old]
      exact ih
    intro chunk member
    rcases mem_append.mp member with earlier | last
    · rw [old] at earlier
      exact ih chunk earlier
    · rw [mem_singleton.mp last]
      exact ⟨rfl, rfl, rfl⟩
  | draft _ _ _ _ ih => exact ih
  | pool _ _ _ _ _ _ ih => exact ih

/-- A request in the engine has been sent no terminal chunk. -/
theorem Lives.streamed (lives : service.Lives r) :
    ∀ chunk ∈ r.out, chunk.finished = false :=
  fun chunk member => (lives.going new chunk member).1

theorem Ended.terminated {last : Request M} (ended : service.Ended last) : Terminated last.out := by
  obtain ⟨r, next, status, why, error, lives, _, old, _, _, _, same⟩ := ended.left
  rw [show last.out = (next.close status why error).out from congrArg (fun r => r.out) same]
  refine terminated_concat ?_ rfl
  rw [old]
  exact lives.streamed new

end Service

namespace Engine

variable {service : Service M} {known : Registration → Prop} {e : Engine M}

/-- The output queue of a request, wherever the request is. -/
def queue (e : Engine M) (id : Nat) : List (OutputChunk M) :=
  ((e.newRequests ++ e.sched.allRequests ++ e.done).find? (fun r => r.id = id)).elim []
    (fun r => r.out)

section

variable (inv : e.Invariant service known)
include inv

theorem Invariant.queue_eq (member : r ∈ e.newRequests ++ e.sched.allRequests ++ e.done) :
    e.queue r.id = r.out := by
  rw [queue, Lib.Keyed.find_of_mem inv.ids_unique member]
  rfl

theorem Invariant.queue_terminated (new : ∀ r, service.fresh r → r.New)
    (ended : id ∈ e.done.map Request.id) : Terminated (e.queue id) := by
  obtain ⟨r, done, same⟩ := mem_map.mp ended
  rw [← same, inv.queue_eq (mem_append_right _ done)]
  exact (inv.ended r done).terminated new

/-- `finish` on every request of the scheduler leaves it empty. -/
theorem Invariant.finishAll_empty (status : RequestStatus) {why : FinishReason}
    (kind : why = .abort ∨ why = .error) (error : String) :
    (e.finishAll status why error).sched.allRequests = [] := by
  have general : ∀ (requests : List (Request M)) {e : Engine M}, e.Invariant service known →
      e.sched.allRequests.Perm requests →
      (requests.foldl (fun e r => e.finish r status why error) e).sched.allRequests = [] := by
    intro requests
    induction requests with
    | nil => exact fun _ all => all.eq_nil
    | cons r requests ih =>
      intro e inv all
      have member := all.mem_iff.mpr mem_cons_self
      obtain ⟨next, _, split⟩ := inv.finish member rfl rfl rfl
        (fun last content => Service.Ended.cut (inv.living member) kind content)
      exact ih next (split.symm.trans all).cons_inv
  exact general _ inv (.refl _)

/-- A request of which the engine knows has ended once it has been aborted. -/
theorem Invariant.finishAbort_done (taken : e.newRequests = []) (issued : id ∈ e.issued) :
    id ∈ (e.finishAbort id).done.map Request.id := by
  have held := inv.held.mem_iff.mpr issued
  rw [taken, nil_append, map_append] at held
  unfold Engine.finishAbort
  split
  · rename_i absent
    rcases mem_append.mp held with live | done
    · obtain ⟨r, member, same⟩ := mem_map.mp live
      have other := find?_eq_none.mp absent r member
      simp [same] at other
    · exact done
  · rename_i r found
    have member := mem_of_find?_eq_some found
    have same : r.id = id := by simpa using find?_some found
    obtain ⟨next, _, split⟩ :
        (e.finish r .finishedAborted .abort).Invariant service known ∧ _ ∧ _ :=
      inv.finish member rfl rfl rfl
        (fun last content => Service.Ended.cut (inv.living member) (.inl rfl) content)
    have ambient := ambient_frame.finish e r .finishedAborted .abort ""
    have sameIssued : (e.finish r .finishedAborted .abort).issued = e.issued :=
      congrArg Ambient.issued ambient
    have noneNew : (e.finish r .finishedAborted .abort).newRequests = [] :=
      (congrArg Ambient.newRequests ambient).trans taken
    have later := next.held.mem_iff.mpr (sameIssued.symm ▸ issued)
    rw [noneNew, nil_append, map_append] at later
    rcases mem_append.mp later with live | done
    · have unique := (split.map Request.id).nodup_iff.mp inv.sched.unique
      rw [map_cons, nodup_cons, same] at unique
      exact (unique.1 live).elim
    · exact done

/-- The ingest ends every request it finds among the aborts. -/
theorem Invariant.ingest_done (issued : id ∈ e.issued) (aborted : id ∈ e.aborts) :
    id ∈ e.ingest.done.map Request.id := by
  have general : ∀ (aborts : List Nat) {e : Engine M}, e.Invariant service known →
      e.newRequests = [] → id ∈ e.issued → id ∈ aborts →
      id ∈ (aborts.foldl Engine.finishAbort e).done.map Request.id := by
    intro aborts
    induction aborts with
    | nil => exact fun _ _ _ => nofun
    | cons first aborts ih =>
      intro e inv taken issued member
      have ambient := ambient_frame.finishAbort e first
      have sameIssued : (e.finishAbort first).issued = e.issued := congrArg Ambient.issued ambient
      rcases mem_cons.mp member with same | later
      · have now := inv.finishAbort_done taken issued
        rw [same] at now ⊢
        exact ((done_frame.foldl done_frame.finishAbort aborts _).map Request.id).subset now
      · exact ih (inv.finishAbort first).1 ((congrArg Ambient.newRequests ambient).trans taken)
          (sameIssued.symm ▸ issued) later
  exact general e.aborts inv.taken rfl issued aborted

end

end Engine

end Iian
