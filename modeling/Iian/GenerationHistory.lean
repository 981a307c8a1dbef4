import Iian.Generation

/- What a run has done for each of its choices, under any interleaving of arrivals and turns. -/
namespace Iian

open List

variable {M : Model}

variable {k : Nat} {chunks : List (OutputChunk M)} {frames : List (Frame M)} {α : Type}
    {logprobs : Option (List (TokenLogprob M))} {c : OutputChunk M}
    {events : List (GenerationEvent M)}

section Results

/-- The result of the choice `k` after the given chunks. -/
def accumulated (req : GenerationRequest) (k : Nat) (chunks : List (OutputChunk M)) :
    ChoiceResult M := chunks.foldl ChoiceResult.apply (ChoiceResult.start M req k)

theorem accumulated_concat (req : GenerationRequest) (k : Nat) (chunks : List (OutputChunk M))
    (c : OutputChunk M) :
    accumulated req k (chunks ++ [c]) = (accumulated req k chunks).apply c := by
  rw [accumulated, accumulated, foldl_concat]

section

variable (r : ChoiceResult M) (c : OutputChunk M)

@[simp] theorem ChoiceResult.apply_index : (r.apply c).index = r.index := by
  unfold ChoiceResult.apply
  dsimp only
  split <;> rfl

@[simp] theorem ChoiceResult.apply_promptIndex : (r.apply c).promptIndex = r.promptIndex := by
  unfold ChoiceResult.apply
  dsimp only
  split <;> rfl

@[simp] theorem ChoiceResult.apply_text : (r.apply c).text = r.text ++ c.text := by
  unfold ChoiceResult.apply
  dsimp only
  split <;> rfl

@[simp] theorem ChoiceResult.apply_logprobs : (r.apply c).logprobs = r.logprobs ++ c.logprobs := by
  unfold ChoiceResult.apply
  dsimp only
  split <;> rfl

end

theorem accumulated_promptIndex (req : GenerationRequest) (k : Nat)
    (chunks : List (OutputChunk M)) : (accumulated req k chunks).promptIndex = k / req.n := by
  induction chunks using List.reverseRecOn with
  | nil => rfl
  | append_singleton chunks c ih => rw [accumulated_concat, ChoiceResult.apply_promptIndex, ih]

/-- Every choice has its own index. -/
theorem accumulated_index {req : GenerationRequest} (inside : k < req.totalChoices)
    (chunks : List (OutputChunk M)) : (accumulated req k chunks).index = k := by
  induction chunks using List.reverseRecOn with
  | nil =>
    rw [accumulated, foldl_nil, ChoiceResult.start]
    cases kind : req.kind with
    | chat =>
      apply Nat.mod_eq_of_lt
      rw [GenerationRequest.totalChoices, req.single kind, Nat.one_mul] at inside
      exact inside
    | completion => rfl
  | append_singleton chunks c ih => rw [accumulated_concat, ChoiceResult.apply_index, ih]

theorem accumulated_text (req : GenerationRequest) (k : Nat) (chunks : List (OutputChunk M)) :
    (accumulated req k chunks).text = chunks.flatMap (fun c => c.text) := by
  induction chunks using List.reverseRecOn with
  | nil => rfl
  | append_singleton chunks c ih => rw [accumulated_concat, ChoiceResult.apply_text, ih]; simp

theorem accumulated_logprobs (req : GenerationRequest) (k : Nat) (chunks : List (OutputChunk M)) :
    (accumulated req k chunks).logprobs = chunks.flatMap (fun c => c.logprobs) := by
  induction chunks using List.reverseRecOn with
  | nil => rfl
  | append_singleton chunks c ih => rw [accumulated_concat, ChoiceResult.apply_logprobs, ih]; simp

/-- The chunks of a choice that ends with STOP or LENGTH. -/
structure Completed (chunks : List (OutputChunk M)) : Prop where
  going : ∀ c ∈ chunks.dropLast, c.finished = false ∧ c.finishReason = .none ∧ c.error = ""
  last : ∃ c ∈ chunks.getLast?,
    c.finished = true ∧ (c.finishReason = .stop ∨ c.finishReason = .length) ∧ c.error = ""

instance (chunks : List (OutputChunk M)) : Decidable (Completed chunks) :=
  decidable_of_iff
    ((∀ c ∈ chunks.dropLast, c.finished = false ∧ c.finishReason = .none ∧ c.error = "") ∧
      ∃ c ∈ chunks.getLast?, c.finished = true ∧
        (c.finishReason = .stop ∨ c.finishReason = .length) ∧ c.error = "")
    ⟨fun parts => ⟨parts.1, parts.2⟩, fun completed => ⟨completed.going, completed.last⟩⟩

theorem Completed.shape (completed : Completed chunks) :
    ∃ front last, chunks = front ++ [last] ∧
      (∀ c ∈ front, c.finished = false ∧ c.finishReason = .none ∧ c.error = "") ∧
      last.finished = true ∧ (last.finishReason = .stop ∨ last.finishReason = .length) ∧
      last.error = "" := by
  obtain ⟨last, here, final⟩ := completed.last
  refine ⟨chunks.dropLast, last, ?_, completed.going, final⟩
  exact (dropLast_append_getLast? last here).symm

theorem Completed.error (completed : Completed chunks) : ∀ c ∈ chunks, c.error = "" := by
  obtain ⟨front, last, rfl, going, _, _, none⟩ := completed.shape
  intro c member
  rcases mem_append.mp member with early | here
  · exact (going c early).2.2
  · rw [mem_singleton.mp here]
    exact none

/-- A choice is finished when all its chunks have been taken. -/
theorem Completed.finished_iff {stream taken : List (OutputChunk M)} (completed : Completed stream)
    (early : taken <+: stream) : taken.any (fun c => c.finished) = true ↔ taken = stream := by
  obtain ⟨front, last, rfl, going, final, _⟩ := completed.shape
  constructor
  · intro finished
    rcases prefix_concat_iff.mp early with whole | short
    · exact whole
    · obtain ⟨c, member, here⟩ := any_eq_true.mp finished
      rw [(going c (short.subset member)).1] at here
      cases here
  · rintro rfl
    simp [final]

end Results

section Frames

/-- The choice a frame is about. -/
def Frame.index : Frame M → Option Nat
  | .chat _ chunk => some chunk.index
  | .completion _ chunk => some chunk.index
  | .usage .. | .error _ | .done => none

def framesOf (k : Nat) (frames : List (Frame M)) : List (Frame M) :=
  frames.filter (fun frame => frame.index = some k)

@[simp] theorem framesOf_append (k : Nat) (front back : List (Frame M)) :
    framesOf k (front ++ back) = framesOf k front ++ framesOf k back := filter_append ..

theorem framesOf_own (own : ∀ frame ∈ frames, frame.index = some k) :
    framesOf k frames = frames := by
  rw [framesOf, filter_eq_self]
  intro frame member
  rw [own frame member]
  simp

theorem framesOf_other {j : Nat} (other : k ≠ j) (own : ∀ frame ∈ frames, frame.index = some j) :
    framesOf k frames = [] := by
  rw [framesOf, filter_eq_nil_iff]
  intro frame member
  rw [own frame member]
  simpa using other.symm

theorem framesOf_none (general : ∀ frame ∈ frames, frame.index = none) :
    framesOf k frames = [] := by
  rw [framesOf, filter_eq_nil_iff]
  intro frame member
  rw [general frame member]
  simp

variable {ctx : ServerContext M} {req : GenerationRequest} {r : ChoiceResult M} {choice : Choice}
  {c : OutputChunk M} {item only : α}

/-- A list of at most one frame. -/
theorem mem_ite_nil {skip : Prop} [Decidable skip] (member : item ∈ if skip then [] else [only]) :
    item = only := by
  split at member
  · cases member
  · exact mem_singleton.mp member

theorem mem_ite_one {keep : Prop} [Decidable keep] (member : item ∈ if keep then [only] else []) :
    item = only := by
  split at member
  · exact mem_singleton.mp member
  · cases member

theorem plainFrames_index {index : Nat} :
    ∀ frame ∈ plainFrames req index logprobs c, frame.index = some index := by
  intro frame member
  rcases mem_append.mp member with content | final
  · rw [mem_ite_nil content]
    rfl
  · rw [mem_ite_one final]
    rfl

theorem heldFrames_index {sent : Nat} :
    ∀ frame ∈ (heldFrames req r sent logprobs).1, frame.index = some r.index := by
  unfold heldFrames
  intro frame member
  dsimp only at member
  split at member
  · rw [mem_singleton.mp member]
    rfl
  split at member
  · rw [mem_singleton.mp member]
    rfl
  · cases member

theorem closingFrames_index {sent : Nat} :
    ∀ frame ∈ closingFrames ctx req r sent logprobs c, frame.index = some r.index := by
  unfold closingFrames
  intro frame member
  dsimp only at member
  split at member
  · rcases mem_append.mp member with content | final
    · rw [mem_ite_one content]
      rfl
    · rw [mem_singleton.mp final]
      rfl
  · rcases mem_append.mp member with content | final
    · rw [mem_ite_one content]
      rfl
    · simp only [mem_cons, not_mem_nil, or_false] at final
      rcases final with rfl | rfl <;> rfl

theorem chatFrames_index : ∀ frame ∈ (chatFrames ctx req r choice c).1,
    frame.index = some r.index := by
  intro frame member
  have role : ∀ frame ∈ roleFrames req r.index choice, (frame : Frame M).index = some r.index := by
    intro frame member
    rw [mem_ite_nil member]
    rfl
  unfold chatFrames at member
  dsimp only at member
  split at member
  · exact (mem_append.mp member).elim (role frame) (plainFrames_index frame)
  · split at member
    · exact (mem_append.mp member).elim (role frame) (heldFrames_index frame)
    · exact (mem_append.mp member).elim (role frame) (closingFrames_index frame)

theorem framesFor_eq (none : c.error = "") :
    framesFor ctx req r choice c =
      match req.kind with
      | .chat => chatFrames ctx req r choice c
      | .completion => completionFrames ctx req r choice c := by
  rw [framesFor, none]
  rfl

/-- The frames of a chunk are about its choice. -/
theorem framesFor_index (none : c.error = "") :
    ∀ frame ∈ (framesFor ctx req r choice c).1, frame.index = some r.index := by
  rw [framesFor_eq none]
  intro frame member
  split at member
  · exact chatFrames_index frame member
  · rw [mem_ite_nil member]
    rfl

/-- The frames that were sent for the chunks of a choice, and what the stream remembers of it.
When the frames for a chunk were made, `ahead` had been added to the result already. -/
inductive Rendered (ctx : ServerContext M) (req : GenerationRequest) (k : Nat)
    (stream : List (OutputChunk M)) : List (OutputChunk M) → List (Frame M) → Choice → Prop
  | nil : Rendered ctx req k stream [] [] {}
  | chunk {seen : List (OutputChunk M)} {frames : List (Frame M)} {choice : Choice}
      (before : Rendered ctx req k stream seen frames choice) (c : OutputChunk M)
      (ahead : List (OutputChunk M)) (within : seen ++ c :: ahead <+: stream) :
      Rendered ctx req k stream (seen ++ [c])
        (frames ++ (framesFor ctx req (accumulated req k (seen ++ c :: ahead)) choice c).1)
        (framesFor ctx req (accumulated req k (seen ++ c :: ahead)) choice c).2

end Frames

section Dumping

instance : LawfulMonad Outcome := LawfulMonad.mk' Outcome
  (by intro _ outcome; cases outcome <;> rfl)
  (by intro _ _ _ _; rfl)
  (by intro _ _ _ outcome _ _; cases outcome <;> rfl)

/-- All strings of a frame are well-formed. -/
def Frame.prints (frame : Frame M) : Bool := frame.strings.all (Lib.Utf8.checkFrom [])

theorem sseFrame_ok {frame result : Frame M} :
    sseFrame frame = .ok result ↔ frame.prints = true ∧ result = frame := by
  rw [sseFrame, dump, Frame.prints]
  split
  · rename_i valid
    simp [valid, eq_comm]
  · rename_i invalid
    simp [invalid]

theorem mapM_sseFrame_ok {result : List (Frame M)} :
    frames.mapM sseFrame = .ok result ↔
      (∀ frame ∈ frames, frame.prints = true) ∧ result = frames := by
  induction frames generalizing result with
  | nil =>
    constructor
    · intro ended
      cases ended
      exact ⟨nofun, rfl⟩
    · rintro ⟨_, rfl⟩
      rfl
  | cons frame frames ih =>
    rw [mapM_cons]
    constructor
    · intro ended
      obtain ⟨first, here, rest⟩ := Outcome.bind_eq_ok ended
      obtain ⟨others, later, shape⟩ := Outcome.bind_eq_ok rest
      obtain ⟨valid, rfl⟩ := sseFrame_ok.mp here
      obtain ⟨all, rfl⟩ := ih.mp later
      cases shape
      refine ⟨?_, rfl⟩
      exact forall_mem_cons.mpr ⟨valid, all⟩
    · rintro ⟨all, rfl⟩
      rw [sseFrame_ok.mpr ⟨all frame mem_cons_self, rfl⟩, Outcome.ok_bind,
        ih.mpr ⟨fun other member => all other (mem_cons_of_mem _ member), rfl⟩]
      rfl

theorem sseFor_ok {ctx : ServerContext M} {req : GenerationRequest} {r : ChoiceResult M}
    {choice : Choice} {result : List (Frame M) × Choice} :
    sseFor ctx req r choice c = .ok result ↔
      (∀ frame ∈ (framesFor ctx req r choice c).1, frame.prints = true) ∧
        result = framesFor ctx req r choice c := by
  constructor
  · intro ended
    obtain ⟨frames, dumped, shape⟩ := Outcome.bind_eq_ok ended
    obtain ⟨all, rfl⟩ := mapM_sseFrame_ok.mp dumped
    cases shape
    exact ⟨all, rfl⟩
  · rintro ⟨all, rfl⟩
    rw [sseFor, mapM_sseFrame_ok.mpr ⟨all, rfl⟩]
    rfl

end Dumping

/-- The chunks of a choice among the events of a call of `pump`. -/
def chunksOf (k : Nat) (events : List (GenerationEvent M)) : List (OutputChunk M) :=
  events.filterMap (fun event => if event.1 = k then some event.2 else none)

@[simp] theorem chunksOf_nil (k : Nat) : chunksOf k ([] : List (GenerationEvent M)) = [] := rfl

@[simp] theorem chunksOf_own (k : Nat) (c : OutputChunk M) (events : List (GenerationEvent M)) :
    chunksOf k ((k, c) :: events) = c :: chunksOf k events := by
  simp [chunksOf]

theorem chunksOf_other {j : Nat} (other : j ≠ k) (c : OutputChunk M)
    (events : List (GenerationEvent M)) : chunksOf k ((j, c) :: events) = chunksOf k events := by
  simp [chunksOf, other]

@[simp] theorem chunksOf_append (k : Nat) (front back : List (GenerationEvent M)) :
    chunksOf k (front ++ back) = chunksOf k front ++ chunksOf k back := filterMap_append

/-- What a run knows of a choice. Of the chunks that have arrived, it has shown `seen`; those in
`waiting` have been added to the result and are not shown yet. -/
structure Slot.Traces (ctx : ServerContext M) (req : GenerationRequest) (k : Nat)
    (stream arrived waiting : List (OutputChunk M)) (sent : List (Frame M))
    (seen : List (OutputChunk M)) (slot : Slot M) : Prop where
  arrived : arrived = seen ++ waiting ++ slot.queue
  result : slot.result = accumulated req k (seen ++ waiting)
  finished : slot.finished = (seen ++ waiting).any (fun c => c.finished)
  rendered : req.stream = true → Rendered ctx req k stream seen (framesOf k sent) slot.toChoice

/-- The choices of a run, with the events of the current call of `pump`. -/
def Traced (ctx : ServerContext M) (req : GenerationRequest)
    (streams arrived : Nat → List (OutputChunk M)) (events : List (GenerationEvent M))
    (sent : List (Frame M)) (slots : List (Slot M)) : Prop :=
  ∀ (k : Nat) (slot : Slot M), slots[k]? = some slot →
    ∃ seen, slot.Traces ctx req k (streams k) (arrived k) (chunksOf k events) sent seen

namespace GenerationRun

variable {ctx : ServerContext M} {req : GenerationRequest}
  {streams arrived : Nat → List (OutputChunk M)}

theorem map_set_same {β : Type} (f : α → β) {items : List α} {old new : α}
    (found : items[k]? = some old) (same : f new = f old) :
    (items.set k new).map f = items.map f := by
  obtain ⟨inside, rfl⟩ := List.getElem?_eq_some_iff.mp found
  rw [map_set, same]
  have bound : k < (items.map f).length := by rwa [length_map]
  rw [show f items[k] = (items.map f)[k] from (getElem_map f).symm, set_getElem_self]

/-- What a loop over events keeps of the slots. -/
theorem render_keeps {slots last : List (Slot M)}
    (ended : render ctx req events slots = .ok (frames, last)) :
    last.map (fun slot => (slot.finished, slot.queue, slot.result)) =
      slots.map (fun slot => (slot.finished, slot.queue, slot.result)) := by
  induction events generalizing slots frames with
  | nil =>
    cases ended
    rfl
  | cons event events ih =>
    obtain ⟨k, c⟩ := event
    rw [render] at ended
    split at ended
    · exact ih ended
    rename_i slot found
    obtain ⟨one, _, rest⟩ := Outcome.bind_eq_ok ended
    obtain ⟨more, later, shape⟩ := Outcome.bind_eq_ok rest
    cases shape
    rw [ih later]
    exact map_set_same _ found rfl

theorem found_inside {slots : List (Slot M)} {slot : Slot M}
    (size : slots.length = req.totalChoices) (found : slots[k]? = some slot) :
    k < req.totalChoices := by
  rw [← size]
  exact (List.getElem?_eq_some_iff.mp found).1

section Showing

variable (streaming : req.stream = true)
  (within : ∀ k < req.totalChoices, arrived k <+: streams k)
  (quiet : ∀ k < req.totalChoices, ∀ c ∈ streams k, c.error = "")
  {slots : List (Slot M)} {sent : List (Frame M)} (size : slots.length = req.totalChoices)
    {slot : Slot M}

include streaming within size in
/-- What stands behind a slot when a chunk of its choice is shown. -/
theorem Traced.head (traced : Traced ctx req streams arrived ((k, c) :: events) sent slots)
    (found : slots[k]? = some slot) :
    ∃ seen, seen ++ c :: chunksOf k events <+: streams k ∧
      Rendered ctx req k (streams k) seen (framesOf k sent) slot.toChoice ∧
      slot.Traces ctx req k (streams k) (arrived k) (c :: chunksOf k events) sent seen := by
  have inside := found_inside size found
  obtain ⟨seen, here⟩ := traced k slot found
  rw [chunksOf_own] at here
  refine ⟨seen, ?_, here.rendered streaming, here⟩
  refine List.IsPrefix.trans ?_ (within k inside)
  rw [here.arrived]
  exact prefix_append _ _

include streaming within quiet size in
/-- The first event is shown: its frames are about its choice. -/
theorem Traced.shown (traced : Traced ctx req streams arrived ((k, c) :: events) sent slots)
    (found : slots[k]? = some slot) :
    (∀ frame ∈ (framesFor ctx req slot.result slot.toChoice c).1, frame.index = some k) ∧
      Traced ctx req streams arrived events
        (sent ++ (framesFor ctx req slot.result slot.toChoice c).1)
        (slots.set k { slot with toChoice := (framesFor ctx req slot.result slot.toChoice c).2 }) := by
  obtain ⟨seen, reach, rendered, here⟩ := Traced.head streaming within size traced found
  have inside : k < slots.length := (List.getElem?_eq_some_iff.mp found).1
  have own : ∀ frame ∈ (framesFor ctx req slot.result slot.toChoice c).1,
      frame.index = some k := by
    rw [size] at inside
    intro frame member
    rw [framesFor_index (quiet k inside c (reach.subset (by simp))) frame member, here.result,
      accumulated_index inside]
  refine ⟨own, ?_⟩
  intro j other found'
  by_cases same : k = j
  · subst same
    rw [getElem?_set_self inside] at found'
    cases found'
    refine ⟨seen ++ [c], ?_, ?_, ?_, ?_⟩
    · rw [here.arrived]
      simp
    · rw [append_assoc]
      exact here.result
    · rw [append_assoc]
      exact here.finished
    intro _
    have step := Rendered.chunk rendered c (chunksOf k events) reach
    rw [framesOf_append, framesOf_own own]
    rw [← here.result] at step
    exact step
  · rw [getElem?_set_ne same] at found'
    obtain ⟨before, old⟩ := traced j other found'
    rw [chunksOf_other same] at old
    refine ⟨before, old.arrived, old.result, old.finished, ?_⟩
    rw [framesOf_append, framesOf_other (Ne.symm same) own, append_nil]
    exact old.rendered

/-- An event of a choice that does not exist is skipped. -/
theorem Traced.skip (absent : slots[k]? = none)
    (traced : Traced ctx req streams arrived ((k, c) :: events) sent slots) :
    Traced ctx req streams arrived events sent slots := by
  intro j slot found
  have other : k ≠ j := by
    rintro rfl
    rw [absent] at found
    cases found
  have old := traced j slot found
  rw [chunksOf_other other] at old
  exact old

include streaming within quiet size in
/-- The loop over the events shows what was waiting. -/
theorem render_traced {last : List (Slot M)}
    (traced : Traced ctx req streams arrived events sent slots)
    (ended : render ctx req events slots = .ok (frames, last)) :
    Traced ctx req streams arrived [] (sent ++ frames) last ∧
      ∀ frame ∈ frames, (∃ k < req.totalChoices, frame.index = some k) ∧ frame.prints = true := by
  induction events generalizing slots sent frames with
  | nil =>
    cases ended
    rw [append_nil]
    exact ⟨traced, nofun⟩
  | cons event events ih =>
    obtain ⟨k, c⟩ := event
    rw [render] at ended
    split at ended
    · rename_i absent
      exact ih size (Traced.skip absent traced) ended
    rename_i slot found
    obtain ⟨one, dumped, rest⟩ := Outcome.bind_eq_ok ended
    obtain ⟨⟨more, after⟩, later, shape⟩ := Outcome.bind_eq_ok rest
    obtain ⟨valid, rfl⟩ := sseFor_ok.mp dumped
    cases shape
    have inside := found_inside size found
    obtain ⟨own, next⟩ := Traced.shown streaming within quiet size traced found
    obtain ⟨traced, rest⟩ := ih ((length_set ..).trans size) next later
    rw [← append_assoc]
    refine ⟨traced, ?_⟩
    intro frame member
    rcases mem_append.mp member with first | others
    · exact ⟨⟨k, inside, own frame first⟩, valid frame first⟩
    · exact rest frame others

/-- Every frame that may be sent for a chunk can be dumped. -/
def FramesPrint (ctx : ServerContext M) (req : GenerationRequest)
    (streams : Nat → List (OutputChunk M)) : Prop :=
  ∀ k < req.totalChoices, ∀ (seen ahead : List (OutputChunk M)) (c : OutputChunk M)
    (frames : List (Frame M)) (choice : Choice), seen ++ c :: ahead <+: streams k →
    Rendered ctx req k (streams k) seen frames choice →
    ∀ frame ∈ (framesFor ctx req (accumulated req k (seen ++ c :: ahead)) choice c).1,
      frame.prints = true

include streaming within quiet size in
theorem render_ok (print : FramesPrint ctx req streams)
    (traced : Traced ctx req streams arrived events sent slots) :
    ∃ result, render ctx req events slots = .ok result := by
  induction events generalizing slots sent with
  | nil => exact ⟨_, rfl⟩
  | cons event events ih =>
    obtain ⟨k, c⟩ := event
    rw [render]
    split
    · rename_i absent
      exact ih size (Traced.skip absent traced)
    rename_i slot found
    obtain ⟨seen, reach, rendered, here⟩ := Traced.head streaming within size traced found
    have inside := found_inside size found
    have valid := print k inside seen (chunksOf k events) c _ _ reach rendered
    rw [← here.result] at valid
    obtain ⟨_, next⟩ := Traced.shown streaming within quiet size traced found
    obtain ⟨⟨more, last⟩, later⟩ := ih ((length_set ..).trans size) next
    rw [sseFor_ok.mpr ⟨valid, rfl⟩, Outcome.ok_bind]
    generalize framesFor ctx req slot.result slot.toChoice c = made at later ⊢
    obtain ⟨frames, choice⟩ := made
    have rest : render ctx req events (slots.set k { slot with toChoice := choice }) =
        .ok (more, last) := later
    exact ⟨(frames ++ more, last), by dsimp only; rw [rest]; rfl⟩

end Showing

end GenerationRun

end Iian
