import Iian.GenerationHistory
import Mathlib.Data.Prod.Lex

/- Every run, from the submission on: what its choices have seen and sent, that it does not
fail when all its frames can be dumped, and that it ends. -/
namespace Iian

open List

variable {M : Model}

variable {slots : List (Slot M)} {sent : List (Frame M)} {k : Nat} {slot : Slot M}

namespace GenerationRun

/-- A run around a call of `pump` that has found the given events. -/
structure Pumped (ctx : ServerContext M) (req : GenerationRequest)
    (streams arrived : Nat → List (OutputChunk M)) (events : List (GenerationEvent M))
    (run : GenerationRun M) : Prop where
  size : run.slots.length = req.totalChoices
  aborted : run.aborted = false
  traced : Traced ctx req streams arrived events run.sent run.slots
  sent : ∀ frame ∈ run.sent, (∃ k < req.totalChoices, frame.index = some k) ∧ frame.prints = true

/-- A run that has ended, with a stream or with an answer. -/
structure Served (ctx : ServerContext M) (req : GenerationRequest)
    (streams arrived : Nat → List (OutputChunk M)) (run : GenerationRun M) : Prop where
  size : run.slots.length = req.totalChoices
  aborted : run.aborted = false
  traced : Traced ctx req streams arrived [] run.sent run.slots
  finished : run.allFinished = true
  stream : req.stream = true → ∃ front : List (Frame M),
    run.sent = front ++ run.usageFrames req ++ [.done] ∧
      ∀ frame ∈ front, (∃ k < req.totalChoices, frame.index = some k) ∧ frame.prints = true
  usage : req.stream = true → ∀ frame ∈ run.usageFrames req, frame.prints = true
  answer : req.stream = false → ∃ response, responseJson ctx req run.results = .ok response ∧
    sendJson response = .ok response ∧ run.answer = some response

/-- A stream whose frames can be dumped. -/
structure Dumps (ctx : ServerContext M) (req : GenerationRequest)
    (streams : Nat → List (OutputChunk M)) : Prop where
  completed : ∀ k < req.totalChoices, Completed (streams k)
  streaming : req.stream = true
  print : FramesPrint ctx req streams
  header : ∀ text ∈ req.header.strings, Lib.Utf8.Valid text

theorem Dumps.quiet {ctx : ServerContext M} {req : GenerationRequest}
    {streams : Nat → List (OutputChunk M)} (dumps : Dumps ctx req streams) :
    ∀ k < req.totalChoices, ∀ c ∈ streams k, c.error = "" :=
  fun k inside => (dumps.completed k inside).error

/-- What is true of a run at each place. -/
def Follows (ctx : ServerContext M) (req : GenerationRequest)
    (streams arrived : Nat → List (OutputChunk M)) (run : GenerationRun M) : Prop :=
  match run.phase with
  | .idle | .blocking => run.Pumped ctx req streams arrived []
  | .draining _ events => run.Pumped ctx req streams arrived events
  | .closed => run.Served ctx req streams arrived
  | .failed _ => ¬ Dumps ctx req streams

variable {ctx : ServerContext M} {req : GenerationRequest}
  {streams arrived : Nat → List (OutputChunk M)} {events : List (GenerationEvent M)}
  {run next : GenerationRun M} {c : OutputChunk M} {last : Slot M}

theorem allFinished_map {last : List (Slot M)}
    (same : last.map (fun slot => (slot.finished, slot.queue, slot.result)) =
      slots.map (fun slot => (slot.finished, slot.queue, slot.result))) :
    last.all (fun slot => slot.finished) = slots.all (fun slot => slot.finished) := by
  have flags := congrArg (List.map Prod.fst) same
  rw [map_map, map_map] at flags
  have all : ∀ items : List (Slot M), items.all (fun slot => slot.finished) =
      (items.map (Prod.fst ∘ fun slot => (slot.finished, slot.queue, slot.result))).all id := by
    intro items
    rw [all_map]
    rfl
  rw [all, all, flags]

theorem closeSse_ok (ended : run.closeSse ctx req events = .ok next) :
    ∃ frames slots, render ctx req events run.slots = .ok (frames, slots) ∧
      (run.allFinished = true ∧
          (∀ frame ∈ abortFrames req { run with slots := slots } ++
            usageFrames req { run with slots := slots }, frame.prints = true) ∧
          next = { run with
            slots := slots
            sent := run.sent ++ frames ++ (abortFrames req { run with slots := slots } ++
              usageFrames req { run with slots := slots }) ++ [.done]
            phase := .closed } ∨
        run.allFinished = false ∧
          next = { run with slots := slots, sent := run.sent ++ frames, phase := .idle }) := by
  obtain ⟨⟨frames, slots⟩, rendered, rest⟩ := Outcome.bind_eq_ok ended
  refine ⟨frames, slots, rendered, ?_⟩
  have same : allFinished { run with slots := slots } = run.allFinished :=
    allFinished_map (render_keeps rendered)
  dsimp only at rest
  split at rest
  · rename_i finished
    obtain ⟨last, dumped, shape⟩ := Outcome.bind_eq_ok rest
    obtain ⟨valid, rfl⟩ := mapM_sseFrame_ok.mp dumped
    cases shape
    exact .inl ⟨same.symm.trans finished, valid, rfl⟩
  · rename_i going
    cases rest
    exact .inr ⟨same.symm.trans (Bool.eq_false_iff.mpr going), rfl⟩

theorem closeCollect_ok (ended : run.closeCollect ctx req = .ok next) :
    (run.allFinished = true ∧ ∃ response, responseJson ctx req run.results = .ok response ∧
        sendJson response = .ok response ∧
        next = { run with answer := some response, phase := .closed }) ∨
      run.allFinished = false ∧ next = { run with phase := .idle } := by
  rw [closeCollect] at ended
  split at ended
  · rename_i finished
    obtain ⟨response, answered, rest⟩ := Outcome.bind_eq_ok ended
    obtain ⟨text, dumped, shape⟩ := Outcome.bind_eq_ok rest
    have same : text = response := by
      rw [sendJson, dump] at dumped
      split at dumped
      · cases dumped
        rfl
      · cases dumped
    rw [same] at dumped shape
    cases shape
    exact .inl ⟨finished, response, answered, dumped, rfl⟩
  · rename_i going
    cases ended
    exact .inr ⟨Bool.eq_false_iff.mpr going, rfl⟩

/-- Without a stream the events of a call are dropped. -/
theorem Traced.collect (batch : req.stream = false)
    (traced : Traced ctx req streams arrived events sent slots) :
    Traced ctx req streams arrived [] sent slots := by
  intro k slot found
  obtain ⟨seen, here⟩ := traced k slot found
  refine ⟨seen ++ chunksOf k events, ?_, ?_, ?_, ?_⟩
  · simpa using here.arrived
  · simpa using here.result
  · simpa using here.finished
  · rw [batch]
    exact nofun

theorem abortFrames_none (running : run.aborted = false) : run.abortFrames req = [] := by
  rw [abortFrames, running]
  rfl

theorem usageFrames_index : ∀ frame ∈ run.usageFrames req, frame.index = none := by
  intro frame member
  rw [mem_ite_one member]
  rfl

/-- A choice has the same frames before and behind the end of a stream. -/
theorem Traced.ending {last : List (Frame M)} (general : ∀ frame ∈ last, frame.index = none)
    (traced : Traced ctx req streams arrived events sent slots) :
    Traced ctx req streams arrived events (sent ++ last) slots := by
  intro k slot found
  obtain ⟨seen, here⟩ := traced k slot found
  refine ⟨seen, here.arrived, here.result, here.finished, ?_⟩
  rw [framesOf_append, framesOf_none general, append_nil]
  exact here.rendered

/-- A chunk that is popped waits among the events. -/
theorem Traced.pop (found : slots[k]? = some slot) (popped : slot.pop = some (c, last))
    (traced : Traced ctx req streams arrived events sent slots) :
    Traced ctx req streams arrived (events ++ [(k, c)]) sent (slots.set k last) := by
  have inside := (List.getElem?_eq_some_iff.mp found).1
  intro j other found'
  by_cases same : k = j
  · subst same
    rw [getElem?_set_self inside] at found'
    cases found'
    obtain ⟨seen, here⟩ := traced k slot found
    rw [Slot.pop] at popped
    split at popped
    · cases popped
    rename_i first queue shape
    cases popped
    refine ⟨seen, ?_, ?_, ?_, here.rendered⟩
    · rw [here.arrived, shape]
      simp [Slot.apply]
    · rw [chunksOf_append, chunksOf_own, ← append_assoc, chunksOf_nil, accumulated_concat, ← here.result]
      rfl
    · change (slot.finished || c.finished) = _
      rw [here.finished]
      simp [Bool.or_assoc]
  · rw [getElem?_set_ne same] at found'
    obtain ⟨seen, here⟩ := traced j other found'
    refine ⟨seen, ?_⟩
    rw [chunksOf_append, chunksOf_other same, chunksOf_nil, append_nil]
    exact here

theorem Pumped.pop {phase : RunPhase M} (found : run.slots[k]? = some slot)
    (popped : slot.pop = some (c, last)) (pumped : run.Pumped ctx req streams arrived events) :
    Pumped ctx req streams arrived (events ++ [(k, c)])
      { run with slots := run.slots.set k last, phase } :=
  ⟨(length_set ..).trans pumped.size, pumped.aborted, Traced.pop found popped pumped.traced,
    pumped.sent⟩

theorem usageFrames_prints (header : ∀ text ∈ req.header.strings, Lib.Utf8.Valid text) :
    ∀ frame ∈ run.usageFrames req, frame.prints = true := by
  intro frame member
  rw [mem_ite_one member]
  exact all_eq_true.mpr fun text inside => Lib.Utf8.checkFrom_iff.mpr (header text inside)

/-- A stream whose frames can be dumped goes on behind a call of `pump`. -/
theorem Pumped.close_ok (dumps : Dumps ctx req streams)
    (within : ∀ k < req.totalChoices, arrived k <+: streams k)
    (pumped : run.Pumped ctx req streams arrived events) :
    ∃ next, run.closeSse ctx req events = .ok next := by
  obtain ⟨⟨frames, slots⟩, rendered⟩ := render_ok dumps.streaming within
    dumps.quiet pumped.size dumps.print pumped.traced
  rw [closeSse, rendered, Outcome.ok_bind]
  dsimp only
  split
  · rename_i finished
    have none : abortFrames req
        { run with slots := slots, sent := run.sent ++ frames, phase := .idle } = [] :=
      abortFrames_none pumped.aborted
    rw [none, nil_append, mapM_sseFrame_ok.mpr ⟨usageFrames_prints dumps.header, rfl⟩]
    exact ⟨_, rfl⟩
  · exact ⟨_, rfl⟩

section

variable (quiet : ∀ k < req.totalChoices, ∀ c ∈ streams k, c.error = "")
    (within : ∀ k < req.totalChoices, arrived k <+: streams k)
include quiet within

theorem Pumped.close (pumped : run.Pumped ctx req streams arrived events) :
    (run.close ctx req events).Follows ctx req streams arrived := by
  have fails : ∀ {outcome}, (if req.stream then run.closeSse ctx req events
      else run.closeCollect ctx req) = outcome → (∀ next, outcome ≠ .ok next) →
      ¬ Dumps ctx req streams := by
    intro outcome ended failed dumps
    obtain ⟨next, goes⟩ := pumped.close_ok dumps within
    rw [if_pos dumps.streaming, goes] at ended
    exact failed next ended.symm
  unfold GenerationRun.close
  split
  · rename_i next ended
    split at ended
    · rename_i streaming
      obtain ⟨frames, slots, rendered, shape⟩ := closeSse_ok ended
      have size : slots.length = req.totalChoices := by
        have same := congrArg List.length (render_keeps rendered)
        rw [length_map, length_map] at same
        exact same.trans pumped.size
      obtain ⟨traced, own⟩ := render_traced streaming within quiet pumped.size pumped.traced
        rendered
      have sent : ∀ frame ∈ run.sent ++ frames,
          (∃ k < req.totalChoices, frame.index = some k) ∧ frame.prints = true := fun frame member =>
        (mem_append.mp member).elim (pumped.sent frame) (own frame)
      rcases shape with ⟨finished, valid, rfl⟩ | ⟨_, rfl⟩
      · have none : abortFrames req { run with slots := slots } = [] :=
          abortFrames_none pumped.aborted
        rw [none, nil_append] at valid ⊢
        refine ⟨size, pumped.aborted, ?_, ?_, fun _ => ⟨_, rfl, sent⟩, fun _ => valid, ?_⟩
        · rw [append_assoc (run.sent ++ frames)]
          refine Traced.ending ?_ traced
          exact forall_mem_append.mpr ⟨usageFrames_index, forall_mem_singleton.mpr rfl⟩
        · exact (allFinished_map (render_keeps rendered)).trans finished
        · intro batch
          rw [streaming] at batch
          cases batch
      · exact ⟨size, pumped.aborted, traced, sent⟩
    · rename_i batch
      rw [Bool.not_eq_true] at batch
      have traced := Traced.collect batch pumped.traced
      rcases closeCollect_ok ended with ⟨finished, response, answered, dumped, rfl⟩ | ⟨_, rfl⟩
      · refine ⟨pumped.size, pumped.aborted, traced, finished, ?_, ?_,
          fun _ => ⟨response, answered, dumped, rfl⟩⟩
        · rw [batch]
          exact nofun
        · rw [batch]
          exact nofun
      · exact ⟨pumped.size, pumped.aborted, traced, pumped.sent⟩
  · rename_i ended
    exact fails ended nofun
  · rename_i ended
    exact fails ended nofun

theorem Pumped.drain (k : Nat) (pumped : run.Pumped ctx req streams arrived events) :
    (run.drain ctx req k events).Follows ctx req streams arrived := by
  unfold GenerationRun.drain
  split
  · split
    · rename_i none
      rw [List.isEmpty_iff.mp none] at pumped
      exact ⟨pumped.size, pumped.aborted, pumped.traced, pumped.sent⟩
    · exact pumped.close quiet within
  · rename_i slot found
    split
    · exact ⟨pumped.size, pumped.aborted, pumped.traced, pumped.sent⟩
    split
    · exact ⟨pumped.size, pumped.aborted, pumped.traced, pumped.sent⟩
    · rename_i c last popped
      exact pumped.pop found popped

theorem Pumped.block (pumped : run.Pumped ctx req streams arrived []) :
    (run.block ctx req).Follows ctx req streams arrived := by
  unfold GenerationRun.block
  split
  · exact pumped.close quiet within
  rename_i k _
  split
  · exact pumped.close quiet within
  rename_i c last popped
  obtain ⟨slot, found, popped⟩ := Option.bind_eq_some_iff.mp popped
  exact (pumped.pop found popped).close quiet within

theorem Follows.turn (follows : run.Follows ctx req streams arrived) :
    (run.turn ctx req).Follows ctx req streams arrived := by
  unfold GenerationRun.turn
  unfold Follows at follows
  split
  · rename_i phase
    rw [phase] at follows
    split
    · exact follows.close quiet within
    · exact ⟨follows.size, follows.aborted, follows.traced, follows.sent⟩
  · rename_i k events phase
    rw [phase] at follows
    exact follows.drain quiet within k
  · rename_i phase
    rw [phase] at follows
    exact follows.block quiet within
  · rename_i phase
    unfold Follows
    rw [phase] at follows ⊢
    exact follows
  · rename_i phase
    unfold Follows
    rw [phase] at follows ⊢
    exact follows

end

theorem Traced.arrive (k : Nat) (c : OutputChunk M)
    (traced : Traced ctx req streams arrived events sent slots) :
    Traced ctx req streams (fun j => if j = k then arrived j ++ [c] else arrived j) events sent
      (slots.modify k (fun slot => { slot with queue := slot.queue ++ [c] })) := by
  intro j slot found
  rw [getElem?_modify] at found
  obtain ⟨old, before, shape⟩ := Option.map_eq_some_iff.mp found
  obtain ⟨seen, here⟩ := traced j old before
  by_cases same : k = j
  · rw [if_pos same] at shape
    rw [← shape]
    refine ⟨seen, (if_pos same.symm).trans ?_, here.result, here.finished, here.rendered⟩
    rw [here.arrived]
    simp
  · rw [if_neg same] at shape
    rw [← shape]
    exact ⟨seen, (if_neg (Ne.symm same)).trans here.arrived, here.result, here.finished,
      here.rendered⟩

theorem arrive_keeps (k : Nat) (c : OutputChunk M) {α : Type} (f : Slot M → α)
    (same : ∀ slot : Slot M, f { slot with queue := slot.queue ++ [c] } = f slot) :
    (run.arrive k c).slots.map f = run.slots.map f := by
  apply ext_getElem?
  intro j
  rw [getElem?_map, getElem?_map]
  change Option.map f (run.slots.modify k _)[j]? = _
  rw [getElem?_modify]
  cases run.slots[j]? with
  | none => rfl
  | some slot =>
    by_cases here : k = j
    · simp [here, same]
    · simp [here]

theorem Follows.arrive (k : Nat) (c : OutputChunk M)
    (follows : run.Follows ctx req streams arrived) :
    (run.arrive k c).Follows ctx req streams
      (fun j => if j = k then arrived j ++ [c] else arrived j) := by
  have pumps : ∀ {events}, run.Pumped ctx req streams arrived events →
      (run.arrive k c).Pumped ctx req streams
        (fun j => if j = k then arrived j ++ [c] else arrived j) events := fun pumped =>
    ⟨(length_modify ..).trans pumped.size, pumped.aborted, Traced.arrive k c pumped.traced,
      pumped.sent⟩
  have results : (run.arrive k c).results = run.results := arrive_keeps k c _ fun _ => rfl
  have usage : (run.arrive k c).usageFrames req = run.usageFrames req := by
    rw [usageFrames, usageFrames, results]
  have finished : (run.arrive k c).allFinished = run.allFinished := by
    have flags : (run.arrive k c).slots.map (fun slot => slot.finished) =
        run.slots.map (fun slot => slot.finished) := arrive_keeps k c _ fun _ => rfl
    have all := congrArg (fun flags => flags.all id) flags
    simp only [all_map] at all
    exact all
  unfold Follows at follows ⊢
  change match run.phase with
    | .idle | .blocking => _
    | .draining _ events => _
    | .closed => _
    | .failed _ => _
  split <;> rename_i phase <;> rw [phase] at follows
  · exact pumps follows
  · exact pumps follows
  · exact pumps follows
  · refine ⟨(length_modify ..).trans follows.size, follows.aborted,
      Traced.arrive k c follows.traced, finished.trans follows.finished, ?_, ?_, ?_⟩
    · rw [usage]
      exact follows.stream
    · rw [usage]
      exact follows.usage
    · rw [results]
      exact follows.answer
  · exact follows

/-- The chunks of a choice that have arrived. -/
def arrivals (events : List (Event M)) (k : Nat) : List (OutputChunk M) :=
  events.filterMap (fun
    | .arrive j c => if j = k then some c else none
    | .turn | .abort => none)

theorem arrivals_append (front back : List (Event M)) (k : Nat) :
    arrivals (front ++ back) k = arrivals front k ++ arrivals back k := filterMap_append

theorem within_of_whole (whole : ∀ k < req.totalChoices, arrived k = streams k) :
    ∀ k < req.totalChoices, arrived k <+: streams k :=
  fun k inside => whole k inside ▸ prefix_rfl

theorem within_of_append {front back : List (Event M)}
    (within : ∀ k < req.totalChoices, arrivals (front ++ back) k <+: streams k) :
    ∀ k < req.totalChoices, arrivals front k <+: streams k := by
  intro k inside
  refine List.IsPrefix.trans ?_ (within k inside)
  rw [arrivals_append]
  exact prefix_append _ _

theorem new_follows : (GenerationRun.new M req).Follows ctx req streams (fun _ => []) := by
  refine ⟨by simp [GenerationRun.new], rfl, ?_, nofun⟩
  intro k slot found
  rw [GenerationRun.new, getElem?_map] at found
  obtain ⟨j, place, shape⟩ := Option.map_eq_some_iff.mp found
  obtain ⟨_, same⟩ := List.getElem?_eq_some_iff.mp place
  rw [getElem_range] at same
  rw [← shape, ← same]
  exact ⟨[], rfl, rfl, rfl, fun _ => .nil⟩

/-- Every run, whatever the interleaving. -/
theorem serve_follows (quiet : ∀ k < req.totalChoices, ∀ c ∈ streams k, c.error = "")
    (events : List (Event M)) (running : Event.abort ∉ events)
    (within : ∀ k < req.totalChoices, arrivals events k <+: streams k) :
    (serve ctx req events).Follows ctx req streams (arrivals events) := by
  induction events using List.reverseRecOn with
  | nil => exact new_follows
  | append_singleton events event ih =>
    have before := ih (fun member => running (mem_append_left _ member)) (within_of_append within)
    rw [serve, foldl_concat]
    cases event with
    | arrive k c =>
      have shape : arrivals (events ++ [.arrive k c]) =
          fun j => if j = k then arrivals events j ++ [c] else arrivals events j := by
        funext j
        rw [arrivals_append]
        by_cases same : j = k
        · simp [arrivals, same]
        · simp [arrivals, same, Ne.symm same]
      rw [shape]
      exact Follows.arrive k c before
    | turn =>
      have shape : arrivals (events ++ [.turn]) = arrivals events := by
        funext j
        rw [arrivals_append]
        exact append_nil _
      rw [shape] at within ⊢
      exact Follows.turn quiet within before
    | abort => exact (running (mem_append_right _ mem_cons_self)).elim

theorem serve_served (completed : ∀ k < req.totalChoices, Completed (streams k))
    {events : List (Event M)} (running : Event.abort ∉ events)
    (within : ∀ k < req.totalChoices, arrivals events k <+: streams k)
    (closed : (serve ctx req events).phase = .closed) :
    (serve ctx req events).Served ctx req streams (arrivals events) := by
  have follows : (serve ctx req events).Follows ctx req streams (arrivals events) :=
    serve_follows (fun k inside => (completed k inside).error) events running within
  rw [Follows, closed] at follows
  exact follows

/-- The results of a run whose choices have all been finished. -/
def collected (req : GenerationRequest) (streams : Nat → List (OutputChunk M)) :
    List (ChoiceResult M) :=
  (List.range req.totalChoices).map (fun k => accumulated req k (streams k))

section

variable (completed : ∀ k < req.totalChoices, Completed (streams k))
    (within : ∀ k < req.totalChoices, arrived k <+: streams k)
include completed within

variable (served : run.Served ctx req streams arrived)

include served

/-- When a run has ended, each of its choices has seen all its chunks. -/
theorem Served.seen (found : run.slots[k]? = some slot) :
    slot.Traces ctx req k (streams k) (arrived k) [] run.sent (streams k) := by
  have inside := found_inside served.size found
  obtain ⟨seen, here⟩ := served.traced k slot found
  rw [chunksOf_nil] at here
  have early : seen <+: streams k := by
    refine List.IsPrefix.trans ?_ (within k inside)
    rw [here.arrived, append_nil]
    exact prefix_append _ _
  have finished : slot.finished = true :=
    all_eq_true.mp served.finished slot (mem_of_getElem? found)
  rw [here.finished, append_nil, (completed k inside).finished_iff early] at finished
  rw [finished] at here
  exact here

/-- A run that has ended has the same results, whatever the interleaving was. -/
theorem Served.results_eq :
    run.results = collected req streams := by
  apply ext_getElem
  · rw [results, collected, length_map, length_map, length_range, served.size]
  intro k here _
  rw [results, length_map] at here
  have seen := (served.seen completed within (getElem?_eq_getElem here)).result
  simpa [results, collected] using seen

/-- The frames of a choice, when a stream has ended. -/
theorem Served.rendered (streaming : req.stream = true) (inside : k < req.totalChoices) :
    ∃ choice, Rendered ctx req k (streams k) (streams k) (framesOf k run.sent) choice := by
  rw [← served.size] at inside
  exact ⟨_, (served.seen completed within (getElem?_eq_getElem inside)).rendered streaming⟩

end

section Ending

variable (dumps : Dumps ctx req streams)
  (within : ∀ k < req.totalChoices, arrived k <+: streams k)
  (whole : ∀ k < req.totalChoices, arrived k = streams k)

/-- The chunks that were not popped yet. -/
def remaining (run : GenerationRun M) : Nat :=
  (run.slots.map (fun slot => slot.queue.length)).sum

/-- How far a run is from the end of a call of `pump`. -/
def distance (size : Nat) : RunPhase M → Nat
  | .closed | .failed _ => 0
  | .blocking => 1
  | .draining k [] => size - k + 2
  | .idle => size + 4
  | .draining k (_ :: _) => size - k + size + 6

/-- What every turn makes smaller: the chunks that are left, or the way to the end of `pump`. -/
def rank (run : GenerationRun M) : Nat ×ₗ Nat :=
  toLex (run.remaining, distance run.slots.length run.phase)

theorem rank_lt : next.rank < run.rank ↔ next.remaining < run.remaining ∨
    next.remaining = run.remaining ∧
      distance next.slots.length next.phase < distance run.slots.length run.phase :=
  Prod.Lex.toLex_lt_toLex

include dumps within in
/-- A call of `pump` is over. -/
theorem Pumped.close_rank (pumped : run.Pumped ctx req streams arrived events) :
    (run.close ctx req events).remaining = run.remaining ∧
      distance (run.close ctx req events).slots.length (run.close ctx req events).phase ≤
        run.slots.length + 4 ∧
      (run.allFinished = true → (run.close ctx req events).phase = .closed) := by
  obtain ⟨next, ended⟩ := pumped.close_ok dumps within
  have shape : run.close ctx req events = next := by
    rw [GenerationRun.close, if_pos dumps.streaming, ended]
  obtain ⟨frames, slots, rendered, how⟩ := closeSse_ok ended
  have kept := render_keeps rendered
  have size : slots.length = run.slots.length := by simpa using congrArg List.length kept
  have queues : (slots.map (fun slot => slot.queue.length)).sum = run.remaining := by
    have lengths := congrArg (fun parts => (parts.map (fun part => part.2.1.length)).sum) kept
    simpa [remaining, map_map, Function.comp_def] using lengths
  rw [shape]
  rcases how with ⟨_, _, rfl⟩ | ⟨going, rfl⟩
  · exact ⟨queues, Nat.zero_le _, fun _ => rfl⟩
  · refine ⟨queues, Nat.le_of_eq (congrArg (fun size => size + 4) size), ?_⟩
    rw [going]
    exact nofun

theorem pop_remaining {last : Slot M} {c : OutputChunk M} (found : slots[k]? = some slot)
    (popped : slot.pop = some (c, last)) :
    ((slots.set k last).map (fun slot => slot.queue.length)).sum <
      (slots.map (fun slot => slot.queue.length)).sum := by
  have less : last.queue.length < slot.queue.length := by
    rw [Slot.pop] at popped
    split at popped
    · cases popped
    rename_i first queue shape
    cases popped
    rw [shape]
    exact Nat.lt_succ_self _
  induction slots generalizing k with
  | nil => cases found
  | cons first slots ih =>
    cases k with
    | zero =>
      cases found
      simp only [set_cons_zero, map_cons, sum_cons]
      omega
    | succ k =>
      have rest := ih found
      simp only [set_cons_succ, map_cons, sum_cons]
      omega

include dumps whole in
/-- When everything has arrived, a choice that is not finished has a chunk in its queue. -/
theorem Traced.ready (size : slots.length = req.totalChoices)
    (traced : Traced ctx req streams arrived events sent slots) (found : slots[k]? = some slot)
    (going : slot.finished = false) : ∃ c last, slot.pop = some (c, last) := by
  have inside := found_inside size found
  obtain ⟨seen, here⟩ := traced k slot found
  rw [Slot.pop]
  split
  · rename_i empty
    have taken := here.arrived
    rw [empty, append_nil, whole k inside] at taken
    have finished := ((dumps.completed k inside).finished_iff (taken ▸ prefix_rfl)).mpr taken.symm
    rw [← here.finished, going] at finished
    cases finished
  · exact ⟨_, _, rfl⟩

include dumps within in
theorem Pumped.drain_less (k : Nat) (here : run.phase = .draining k events)
    (pumped : run.Pumped ctx req streams arrived events) :
    (run.drain ctx req k events).rank < run.rank := by
  rw [rank_lt, here]
  unfold GenerationRun.drain
  split
  · split
    · rename_i none
      rw [List.isEmpty_iff.mp none]
      refine .inr ⟨rfl, ?_⟩
      change 1 < run.slots.length - k + 2
      omega
    · rename_i some
      obtain ⟨same, near, _⟩ := pumped.close_rank dumps within
      refine .inr ⟨same, Nat.lt_of_le_of_lt near ?_⟩
      cases events with
      | nil => exact (some rfl).elim
      | cons event events =>
        change run.slots.length + 4 < run.slots.length - k + run.slots.length + 6
        omega
  · rename_i slot found
    have inside := (List.getElem?_eq_some_iff.mp found).1
    have next : distance run.slots.length (.draining (k + 1) events) <
        distance run.slots.length (.draining k events) := by
      cases events <;> simp only [distance] <;> omega
    split
    · exact .inr ⟨rfl, next⟩
    split
    · exact .inr ⟨rfl, next⟩
    rename_i c last popped
    exact .inl (pop_remaining found popped)

include dumps whole in
theorem Pumped.block_less (here : run.phase = .blocking)
    (pumped : run.Pumped ctx req streams arrived []) : (run.block ctx req).rank < run.rank := by
  have within := within_of_whole whole
  rw [rank_lt, here]
  unfold GenerationRun.block
  split
  · rename_i none
    have finished : run.allFinished = true := by
      rw [findIdx?_eq_none_iff] at none
      rw [allFinished, all_eq_true]
      intro slot member
      simpa using none slot member
    obtain ⟨same, _, closed⟩ := pumped.close_rank dumps within
    rw [closed finished]
    exact .inr ⟨same, Nat.zero_lt_one⟩
  · rename_i k place
    obtain ⟨inside, unfinished, _⟩ := findIdx?_eq_some_iff_getElem.mp place
    have found := getElem?_eq_getElem inside
    obtain ⟨c, last, popped⟩ := Traced.ready dumps whole pumped.size pumped.traced found
      (by simpa using unfinished)
    rw [found, Option.bind_some, popped]
    refine .inl (Nat.lt_of_le_of_lt ?_ (pop_remaining found popped))
    exact Nat.le_of_eq ((pumped.pop found popped).close_rank dumps within).1

include dumps whole in
/-- When everything has arrived, every turn brings the run nearer to its end. -/
theorem Follows.rank_turn (follows : run.Follows ctx req streams arrived)
    (going : run.phase ≠ .closed) : (run.turn ctx req).rank < run.rank := by
  have within := within_of_whole whole
  unfold GenerationRun.turn
  unfold Follows at follows
  split
  · rename_i phase
    rw [phase] at follows
    rw [rank_lt, phase]
    split
    · rename_i finished
      obtain ⟨same, _, closed⟩ := follows.close_rank dumps within
      rw [closed finished]
      exact .inr ⟨same, Nat.succ_pos _⟩
    · refine .inr ⟨rfl, ?_⟩
      change run.slots.length - 0 + 2 < run.slots.length + 4
      omega
  · rename_i k events phase
    rw [phase] at follows
    exact follows.drain_less dumps within k phase
  · rename_i phase
    rw [phase] at follows
    exact follows.block_less dumps whole phase
  · rename_i phase
    exact (going phase).elim
  · rename_i message phase
    rw [phase] at follows
    exact (follows dumps).elim

include dumps in
/-- A stream whose frames can be dumped never fails. -/
theorem serve_intact (events : List (Event M)) (running : Event.abort ∉ events)
    (within : ∀ k < req.totalChoices, arrivals events k <+: streams k) :
    ∀ message, (serve ctx req events).phase ≠ .failed message := by
  intro message failed
  have follows : (serve ctx req events).Follows ctx req streams (arrivals events) :=
    serve_follows dumps.quiet events running within
  rw [Follows, failed] at follows
  exact follows dumps

include dumps whole in
theorem Follows.ends (follows : run.Follows ctx req streams arrived) :
    ∃ count, ((List.replicate count Event.turn).foldl (step ctx req) run).phase = .closed := by
  induction size : run.rank using WellFoundedLT.induction generalizing run with
  | _ size ih =>
    by_cases closed : run.phase = .closed
    · exact ⟨0, closed⟩
    have less := follows.rank_turn dumps whole closed
    obtain ⟨count, ended⟩ := ih _ (size ▸ less)
      (follows.turn dumps.quiet (within_of_whole whole)) rfl
    exact ⟨count + 1, ended⟩

theorem arrivals_turns (events : List (Event M)) (count : Nat) :
    arrivals (events ++ List.replicate count .turn) = arrivals events := by
  funext k
  rw [arrivals_append]
  have none : arrivals (List.replicate count (.turn : Event M)) k = [] := by
    rw [arrivals, filterMap_eq_nil_iff]
    intro event member
    rw [eq_of_mem_replicate member]
  rw [none, append_nil]

include dumps in
/-- Once everything has arrived, a stream whose frames can be dumped comes to its end. -/
theorem serve_ends (events : List (Event M)) (running : Event.abort ∉ events)
    (whole : ∀ k < req.totalChoices, arrivals events k = streams k) :
    ∃ count, (serve ctx req (events ++ List.replicate count .turn)).phase = .closed := by
  obtain ⟨count, closed⟩ := Follows.ends dumps whole
    (serve_follows dumps.quiet events running (within_of_whole whole))
  exact ⟨count, by rw [serve, foldl_append]; exact closed⟩

end Ending

end GenerationRun

end Iian
