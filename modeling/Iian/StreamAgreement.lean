import Iian.ChunkText
import Iian.OutputQueue
import Iian.Printing

/- The stream of a request without tools against its answer. -/
namespace Iian

open List
open Lib.Utf8 (Valid)

variable {M : Model}

section Usage

variable {req : GenerationRequest}

theorem sumUsage_foldl (results : List (ChoiceResult M)) (start : Usage) (seen : List Nat)
    (inside : ∀ r ∈ results, r.promptIndex < req.prompts.length) :
    (results.foldl (sumUsageTurn req) (start, seen)).1 =
      ⟨start.promptTokens + oncePerPrompt (fun r => r.nPrompt) seen results,
        start.completionTokens + completionTokens results,
        start.cachedTokens + oncePerPrompt (fun r => r.nCached) seen results⟩ := by
  induction results generalizing start seen with
  | nil => rfl
  | cons r results ih =>
    have here := inside r mem_cons_self
    have rest : ∀ other ∈ results, other.promptIndex < req.prompts.length :=
      fun other member => inside other (mem_cons_of_mem _ member)
    rw [foldl_cons, sumUsageTurn]
    by_cases old : r.promptIndex ∈ seen
    · rw [if_neg (by simp [old]), ih _ _ rest]
      simp [oncePerPrompt, completionTokens, old, Nat.add_assoc]
    · rw [if_pos ⟨here, old⟩, ih _ _ rest]
      simp [oncePerPrompt, completionTokens, old, Nat.add_assoc]

theorem sumUsage_eq {results : List (ChoiceResult M)}
    (inside : ∀ r ∈ results, r.promptIndex < req.prompts.length) :
    sumUsage req results = ⟨oncePerPrompt (fun r => r.nPrompt) [] results,
      completionTokens results, oncePerPrompt (fun r => r.nCached) [] results⟩ := by
  rw [sumUsage, sumUsage_foldl results _ _ inside]
  simp

end Usage

namespace GenerationRun

variable {ctx : ServerContext M} {req : GenerationRequest}
  {streams arrived : Nat → List (OutputChunk M)} {run : GenerationRun M}

theorem collected_mem {r : ChoiceResult M} (member : r ∈ collected req streams) :
    ∃ k < req.totalChoices, r = accumulated req k (streams k) := by
  obtain ⟨k, inside, rfl⟩ := mem_map.mp member
  exact ⟨k, mem_range.mp inside, rfl⟩

theorem collected_usage : sumUsage req (collected req streams) =
    ⟨oncePerPrompt (fun r => r.nPrompt) [] (collected req streams),
      completionTokens (collected req streams),
      oncePerPrompt (fun r => r.nCached) [] (collected req streams)⟩ := by
  apply sumUsage_eq
  intro r member
  obtain ⟨k, inside, rfl⟩ := collected_mem member
  rw [accumulated_promptIndex, Nat.div_lt_iff_lt_mul req.choices_pos]
  exact inside

/-- The answer for choices that end with STOP or LENGTH. -/
theorem collected_response (completed : ∀ k < req.totalChoices, Completed (streams k)) :
    responseJson ctx req (collected req streams) =
      .ok (match req.kind with
        | .chat => chatResponseJson ctx req (collected req streams)
        | .completion => completionResponseJson ctx req (collected req streams)) := by
  have none : (collected req streams).findSome? choiceError = none := by
    rw [findSome?_eq_none_iff]
    intro r member
    obtain ⟨k, inside, rfl⟩ := collected_mem member
    have finish := (@Completed.accumulated_finish M req k _ (completed k inside)).2
    rw [choiceError]
    rcases finish with stop | length
    · rw [stop]
    · rw [length]
  rw [responseJson, none]
  cases req.kind <;> rfl

theorem usageFrames_usageOf (run : GenerationRun M) :
    (run.usageFrames req).filterMap Frame.usageOf = if req.includeUsage then
      [⟨oncePerPrompt (fun r => r.nPrompt) [] run.results, completionTokens run.results,
        oncePerPrompt (fun r => r.nCached) [] run.results⟩]
    else [] := by
  unfold usageFrames
  split <;> rfl

theorem collected_indices (streams : Nat → List (OutputChunk M)) :
    (collected req streams).map (fun r => r.index) = List.range req.totalChoices := by
  rw [collected, map_map]
  refine (map_congr_left ?_).trans (map_id _)
  intro k member
  exact accumulated_index (mem_range.mp member) _

section

variable (plain : req.parseToolCalls = false) (streaming : req.stream = true)
    (completed : ∀ k < req.totalChoices, Completed (streams k))
    (within : ∀ k < req.totalChoices, arrived k <+: streams k)
    (served : run.Served ctx req streams arrived)
include plain streaming completed within served

/-- A stream without tools that has ended agrees with the answer. -/
theorem Served.agrees :
    ∃ response, responseJson ctx req (collected req streams) = .ok response ∧
      Agrees req run.sent response := by
  refine ⟨_, collected_response completed, ?_⟩
  obtain ⟨front, shape, own⟩ := served.stream streaming
  have results := served.results_eq completed within
  have usages : run.sent.filterMap Frame.usageOf = if req.includeUsage then
      [sumUsage req (collected req streams)] else [] := by
    have none : front.filterMap Frame.usageOf = [] := by
      rw [filterMap_eq_nil_iff]
      intro frame member
      obtain ⟨⟨k, _, index⟩, _⟩ := own frame member
      cases frame <;> first | rfl | cases index
    rw [shape, filterMap_append, filterMap_append, none, usageFrames_usageOf, results,
      collected_usage, nil_append]
    exact append_nil _
  have general : ∀ frame ∈ run.sent, ∀ k, frame.index = some k → k < req.totalChoices := by
    intro frame member k index
    rw [shape] at member
    rcases mem_append.mp member with early | done
    · rcases mem_append.mp early with body | usage
      · obtain ⟨⟨j, inside, same⟩, _⟩ := own frame body
        rw [index] at same
        cases same
        exact inside
      · rw [usageFrames_index frame usage] at index
        cases index
    · rw [mem_singleton.mp done] at index
      cases index
  have done : ∃ front, run.sent = front ++ [.done] ∧ Frame.done ∉ front := by
    refine ⟨front ++ run.usageFrames req, shape, ?_⟩
    intro member
    rcases mem_append.mp member with body | usage
    · obtain ⟨⟨k, _, index⟩, _⟩ := own _ body
      cases index
    · rw [usageFrames] at usage
      cases mem_ite_one usage
  cases kind : req.kind with
  | chat =>
    refine ⟨?_, ?_, general, usages, done⟩
    · simp only [chatResponseJson, Response.indices, map_map, ← collected_indices streams]
      apply map_congr_left
      intro r _
      simp [chatChoice_plain plain]
    · intro choice member
      obtain ⟨r, old, rfl⟩ := mem_map.mp member
      obtain ⟨k, inside, rfl⟩ := collected_mem old
      exact chatChoice_streamed (completed k inside) inside
        (served.rendered completed within streaming inside) kind plain
  | completion =>
    refine ⟨?_, ?_, general, usages, done⟩
    · simp only [completionResponseJson, Response.indices, map_map, ← collected_indices streams]
      apply map_congr_left
      intro r _
      rfl
    · intro choice member
      obtain ⟨r, old, rfl⟩ := mem_map.mp member
      obtain ⟨k, inside, rfl⟩ := collected_mem old
      exact completionChoice_streamed (completed k inside) inside
        (served.rendered completed within streaming inside) kind

/-- Everything that a stream without tools has shown was well-formed. -/
theorem Served.printable : Printable req streams := by
  obtain ⟨front, shape, own⟩ := served.stream streaming
  have prints : ∀ k, ∀ frame ∈ framesOf k run.sent, frame.prints = true := by
    intro k frame member
    obtain ⟨sent, index⟩ := mem_filter.mp member
    rw [decide_eq_true_eq] at index
    rw [shape] at sent
    rcases mem_append.mp sent with early | done
    · rcases mem_append.mp early with body | usage
      · exact (own frame body).2
      · rw [usageFrames_index frame usage] at index
        cases index
    · rw [mem_singleton.mp done] at index
      cases index
  have printed : ∀ k < req.totalChoices,
      (∀ i c, (streams k)[i]? = some c → ChunkPrints req (shownText req k i c) c) ∧
        ∀ c ∈ streams k, c.finished = true → req.HeaderPrints := by
    intro k inside
    obtain ⟨choice, rendered⟩ := served.rendered completed within streaming inside
    exact rendered.printed plain (completed k inside) (prints k)
  refine ⟨?_, fun k inside => (printed k inside).1⟩
  have first : 0 < req.totalChoices := Nat.mul_pos req.prompts_pos req.choices_pos
  obtain ⟨front, last, whole, _, final, _⟩ := (completed 0 first).shape
  exact (printed 0 first).2 last (by rw [whole]; simp) final

end

/-- A schedule in which everything arrives first. -/
def arriveAll (streams : Nat → List (OutputChunk M)) (count : Nat) : List (Event M) :=
  (List.range count).flatMap (fun k => (streams k).map (Event.arrive k))

theorem arrivals_arriveAll (streams : Nat → List (OutputChunk M)) (count k : Nat) :
    arrivals (arriveAll streams count) k = if k < count then streams k else [] := by
  induction count with
  | zero => rfl
  | succ count ih =>
    have one : arrivals ((streams count).map (Event.arrive count)) k =
        if count = k then streams count else [] := by
      rw [arrivals, filterMap_map]
      split
      · rename_i same
        simp [same]
      · rename_i other
        simp [other]
    rw [arriveAll, range_succ, flatMap_append, arrivals_append, ← arriveAll, ih,
      flatMap_singleton, one]
    by_cases same : count = k
    · simp [same]
    · by_cases early : k < count
      · simp [early, same, Nat.lt_succ_of_lt early]
      · simp [early, same, show ¬ k < count + 1 by omega]

theorem abort_arriveAll (streams : Nat → List (OutputChunk M)) (count : Nat) :
    Event.abort ∉ arriveAll streams count := by
  simp [arriveAll]

/-- If everything that has arrived brings a run to its end, the schedule in which everything
arrives first does. -/
theorem arriveAll_ends (ends : ∀ events : List (Event M), Event.abort ∉ events →
      (∀ k < req.totalChoices, arrivals events k <+: streams k) →
      (∀ k < req.totalChoices, arrivals events k = streams k) →
      ∃ count, (serve ctx req (events ++ List.replicate count .turn)).phase = .closed) :
    ∃ count, let events := arriveAll streams req.totalChoices ++ List.replicate count .turn
      (serve ctx req events).phase = .closed ∧ Event.abort ∉ events ∧
        ∀ k < req.totalChoices, arrivals events k <+: streams k := by
  have whole : ∀ k < req.totalChoices,
      arrivals (arriveAll streams req.totalChoices) k = streams k := by
    intro k inside
    rw [arrivals_arriveAll, if_pos inside]
  obtain ⟨count, closed⟩ := ends _ (abort_arriveAll _ _) (within_of_whole whole) whole
  refine ⟨count, closed, ?_, ?_⟩
  · simp [abort_arriveAll]
  · intro k inside
    rw [arrivals_turns, whole k inside]

/-- A stream without tools agrees with the answer, for every interleaving of arrivals and
turns, if and only if all that it shows is well-formed UTF-8. -/
theorem serve_agrees_iff (ctx : ServerContext M) (req : GenerationRequest)
    (streams : Nat → List (OutputChunk M)) (plain : req.parseToolCalls = false)
    (streaming : req.stream = true)
    (completed : ∀ k < req.totalChoices, Completed (streams k)) :
    (∀ events : List (Event M), Event.abort ∉ events →
        (∀ k < req.totalChoices, arrivals events k <+: streams k) →
        (∀ message, (serve ctx req events).phase ≠ .failed message) ∧
        ((serve ctx req events).phase = .closed →
          ∃ response, responseJson ctx req (collected req streams) = .ok response ∧
            Agrees req (serve ctx req events).sent response) ∧
        ((∀ k < req.totalChoices, arrivals events k = streams k) →
          ∃ count, (serve ctx req (events ++ List.replicate count .turn)).phase = .closed)) ↔
      Printable req streams := by
  constructor
  · intro all
    obtain ⟨count, closed, running, within⟩ := arriveAll_ends fun events running within =>
      (all events running within).2.2
    exact (serve_served completed running within closed).printable plain streaming completed within
  · intro printable events running within
    have dumps : Dumps ctx req streams :=
      ⟨completed, streaming, printable.frames plain completed, printable.header⟩
    refine ⟨serve_intact dumps events running within, ?_, serve_ends dumps events running⟩
    intro closed
    exact (serve_served completed running within closed).agrees plain streaming completed within

end GenerationRun

namespace Service

variable {service : Service M}

/-- The queue of a request that has ended with STOP or LENGTH. -/
theorem Ended.completed (new : ∀ r, service.fresh r → r.New) {last : Request M}
    (ended : service.Ended last) (why : last.finishReason = .stop ∨ last.finishReason = .length) :
    Completed last.out := by
  obtain ⟨r, next, status, reason, error, lives, _, old, _, _, kind, same⟩ := ended.left
  rw [show last.finishReason = reason from congrArg (fun r => r.finishReason) same] at why
  have clean : error = "" := by
    rcases kind with rfl | rfl | clean
    · rcases why with why | why <;> cases why
    · rcases why with why | why <;> cases why
    · exact clean
  rw [show last.out = (next.close status reason error).out from congrArg (fun r => r.out) same,
    Request.close, old]
  refine ⟨?_, _, getLast?_concat, rfl, why, clean⟩
  rw [dropLast_concat]
  exact lives.going new

end Service

/-- What the engine delivers for a request that ends with STOP or LENGTH. -/
theorem Engine.run_completed (M : Model) (cfg : EngineConfig) (actions : List Action)
    {r : Request M} (done : r ∈ (run M cfg actions).done)
    (why : r.finishReason = .stop ∨ r.finishReason = .length) : Completed r.out :=
  ((run_invariant M cfg actions).ended r done).completed (fun _ => Submitted.new) why

namespace GenerationRun

def spellingContext : ServerContext Model.spelling where
  Num := _
  numbers := .spelled
  cleanLogprob logprob := logprob.getD (0 : Int)

/-- Two completions of a prompt that ends within the character `é`. -/
def echoRequest : GenerationRequest where
  kind := .completion
  id := [0x69]
  model := [0x6D]
  prompts := [[5]]
  promptTexts := [[0x61, 0xC3]]
  n := 2
  stream := true
  includeUsage := true
  echo := true
  wantLogprobs := true
  topLogprobs := 1
  choices_pos := Nat.two_pos
  prompts_pos := Nat.one_pos
  texts := rfl
  single := nofun

/-- The chunks of each of them. -/
def echoStream : List (OutputChunk Model.spelling) :=
  [{ tokens := [1], text := [0xA9], logprobs := [{ token := 1, top := [(2, (4 : Int)), (7, (1 : Int))] }] },
    { tokens := [2], text := [0x62], finished := true, finishReason := .stop }]

theorem serve_agrees_echo :
    ∃ count, (serve spellingContext echoRequest (arriveAll (fun _ => echoStream) 2 ++
        List.replicate count .turn)).phase = .closed ∧
      ∃ response, responseJson spellingContext echoRequest
          (collected echoRequest (fun _ => echoStream)) = .ok response ∧
        Agrees echoRequest (serve spellingContext echoRequest
          (arriveAll (fun _ => echoStream) 2 ++ List.replicate count .turn)).sent response := by
  have printable : Printable echoRequest (fun _ => echoStream) := by
    refine ⟨by decide, ?_⟩
    intro k inside i c found
    have first : k / echoRequest.n = 0 := Nat.div_eq_of_lt inside
    match i with
    | 0 =>
      cases found
      refine ⟨?_, by decide, by decide⟩
      rw [shownText, first]
      decide
    | 1 =>
      cases found
      refine ⟨?_, by decide, by decide⟩
      rw [shownText, first]
      decide
  have all := (serve_agrees_iff spellingContext echoRequest (fun _ => echoStream) rfl rfl
    (fun _ _ => by decide)).mpr printable
  obtain ⟨count, closed, running, within⟩ := arriveAll_ends fun events running within =>
    (all events running within).2.2
  exact ⟨count, closed, (all _ running within).2.1 closed⟩

/-- A chat with one choice. -/
def chatRequest (stream : Bool) : GenerationRequest where
  kind := .chat
  id := [0x69]
  model := [0x6D]
  prompts := [[5, 5, 5]]
  promptTexts := [[]]
  stream := stream
  choices_pos := Nat.one_pos
  prompts_pos := Nat.one_pos
  texts := rfl
  single _ := rfl

def RunPhase.isFailed : RunPhase M → Bool
  | .failed _ => true
  | .idle | .draining .. | .blocking | .closed => false

/-- The engine delivers `é` in two chunks: the answer is sent, the stream fails with nothing
sent. -/
theorem serve_splits :
    ∃ r ∈ (Engine.run Model.spelling Engine.streamConfig
        (Engine.heldRun [5, 5, 5] [0x78, 0x79])).done,
      Completed r.out ∧
        RunPhase.isFailed (serve spellingContext (chatRequest true)
          (arriveAll (fun _ => r.out) 1 ++ List.replicate 6 .turn)).phase = true ∧
        (serve spellingContext (chatRequest true)
          (arriveAll (fun _ => r.out) 1 ++ List.replicate 6 .turn)).sent.length = 0 ∧
        (serve spellingContext (chatRequest false)
          (arriveAll (fun _ => r.out) 1 ++ List.replicate 6 .turn)).answer.isSome = true := by
  decide +kernel

end GenerationRun

end Iian
