import Iian.GenerationSteps

/- What the frames of a choice add up to, in a stream without tools. -/
namespace Iian

open List

variable {M : Model}

section Parts

/-- What a frame adds to the content or the text of its choice. -/
def Frame.text : Frame M → Bytes
  | .chat _ chunk =>
    match chunk.delta with
    | .content text => text
    | .role | .toolCalls _ | .empty => []
  | .completion _ chunk => chunk.text
  | .usage .. | .error _ | .done => []

def Frame.chatLogprobs : Frame M → List (TokenLogprob M)
  | .chat _ chunk => chunk.logprobs.getD []
  | .completion .. | .usage .. | .error _ | .done => []

def Frame.completionLogprobs : Frame M → CompletionLogprobs M
  | .completion _ chunk => chunk.logprobs.getD {}
  | .chat .. | .usage .. | .error _ | .done => {}

/-- A finish reason that is not null, with the stop reason beside it. -/
def finishOf (finish : FinishReason) (stop : Option StopReason) :
    Option (FinishReason × Option StopReason) :=
  if finish = .none then none else some (finish, stop)

def Frame.finish : Frame M → Option (FinishReason × Option StopReason)
  | .chat _ chunk => finishOf chunk.finishReason chunk.stopReason
  | .completion _ chunk => finishOf chunk.finishReason chunk.stopReason
  | .usage .. | .error _ | .done => none

def Frame.usageOf : Frame M → Option Usage
  | .usage _ counts => some counts
  | .chat .. | .completion .. | .error _ | .done => none

/-- The arrays of several chunks, one behind another. -/
def CompletionLogprobs.join (parts : List (CompletionLogprobs M)) : CompletionLogprobs M where
  tokens := parts.flatMap (fun part => part.tokens)
  tokenLogprobs := parts.flatMap (fun part => part.tokenLogprobs)
  topLogprobs := parts.flatMap (fun part => part.topLogprobs)
  textOffset := parts.flatMap (fun part => part.textOffset)

def CompletionLogprobs.append (first second : CompletionLogprobs M) : CompletionLogprobs M where
  tokens := first.tokens ++ second.tokens
  tokenLogprobs := first.tokenLogprobs ++ second.tokenLogprobs
  topLogprobs := first.topLogprobs ++ second.topLogprobs
  textOffset := first.textOffset ++ second.textOffset

theorem CompletionLogprobs.join_append (front back : List (CompletionLogprobs M)) :
    join (front ++ back) = (join front).append (join back) := by
  simp [join, append]

theorem CompletionLogprobs.join_one (part : CompletionLogprobs M) : join [part] = part := by
  simp [join]

theorem CompletionLogprobs.append_empty (part : CompletionLogprobs M) : part.append {} = part := by
  simp [append]

variable {ctx : ServerContext M} {topN : Int} {base : Nat}

theorem CompletionLogprobs.foldl_push (logprobs : List (SampledToken M.Logit))
    (acc : CompletionLogprobs M) (offset : Nat) :
    logprobs.foldl (push ctx topN base) (acc, offset) =
      (acc.append (completionLogprobsJson ctx logprobs topN base offset).1,
        (completionLogprobsJson ctx logprobs topN base offset).2) := by
  induction logprobs using List.reverseRecOn with
  | nil => rw [foldl_nil, completionLogprobsJson, foldl_nil, append_empty]
  | append_singleton logprobs sampled ih =>
    rw [completionLogprobsJson, foldl_concat, foldl_concat, ih, ← completionLogprobsJson]
    simp [push, append]

/-- The arrays of some tokens and then of others, with the running offset. -/
theorem completionLogprobsJson_append (first second : List (SampledToken M.Logit)) (offset : Nat) :
    completionLogprobsJson ctx (first ++ second) topN base offset =
      ((completionLogprobsJson ctx first topN base offset).1.append
          (completionLogprobsJson ctx second topN base
            (completionLogprobsJson ctx first topN base offset).2).1,
        (completionLogprobsJson ctx second topN base
          (completionLogprobsJson ctx first topN base offset).2).2) := by
  rw [completionLogprobsJson, foldl_append, ← completionLogprobsJson]
  exact CompletionLogprobs.foldl_push second _ _

end Parts

section Agreement

/-- The frames of a choice add up to its part of the answer. -/
structure ChatChoice.Streamed (frames : List (Frame M)) (choice : ChatChoice M) : Prop where
  content : choice.content = some ((framesOf choice.index frames).flatMap Frame.text)
  logprobs : choice.logprobs.getD [] = (framesOf choice.index frames).flatMap Frame.chatLogprobs
  finish : (framesOf choice.index frames).filterMap Frame.finish =
    [(choice.finishReason, some choice.stopReason)]

structure CompletionChoice.Streamed (frames : List (Frame M)) (choice : CompletionChoice M) :
    Prop where
  text : choice.text = (framesOf choice.index frames).flatMap Frame.text
  logprobs : choice.logprobs.getD {} =
    .join ((framesOf choice.index frames).map Frame.completionLogprobs)
  finish : (framesOf choice.index frames).filterMap Frame.finish =
    [(choice.finishReason, some choice.stopReason)]

def Response.Streamed (frames : List (Frame M)) : Response M → Prop
  | .chat _ choices _ => ∀ choice ∈ choices, choice.Streamed frames
  | .completion _ choices _ => ∀ choice ∈ choices, choice.Streamed frames

def Response.indices : Response M → List Nat
  | .chat _ choices _ => choices.map (fun choice => choice.index)
  | .completion _ choices _ => choices.map (fun choice => choice.index)

def Response.usage : Response M → Usage
  | .chat _ _ usage => usage
  | .completion _ _ usage => usage

/-- A stream that has ended agrees with an answer: the frames of each choice do, there is a
usage frame if one was asked for, and the last frame, and no other, is `[DONE]`. -/
structure Agrees (req : GenerationRequest) (frames : List (Frame M)) (response : Response M) :
    Prop where
  indices : response.indices = List.range req.totalChoices
  choices : response.Streamed frames
  own : ∀ frame ∈ frames, ∀ k, frame.index = some k → k < req.totalChoices
  usage : frames.filterMap Frame.usageOf = if req.includeUsage then [response.usage] else []
  done : ∃ front, frames = front ++ [.done] ∧ Frame.done ∉ front

end Agreement

variable {seen : List (OutputChunk M)} {choice : Choice}

section Chunks

variable {ctx : ServerContext M} {req : GenerationRequest} {k : Nat}
  {stream : List (OutputChunk M)} {frames : List (Frame M)} {r : ChoiceResult M}

def chunkFinish (c : OutputChunk M) : Option (FinishReason × Option StopReason) :=
  finishOf c.finishReason (chunkStop c.finishReason c.stopReason)

/-- A chunk is the last one if it has a finish reason. -/
theorem Completed.finish_iff {chunks : List (OutputChunk M)} (completed : Completed chunks) :
    ∀ c ∈ chunks, (c.finished = true ↔ c.finishReason ≠ .none) := by
  obtain ⟨front, last, rfl, going, final, why, _⟩ := completed.shape
  intro c member
  rcases mem_append.mp member with early | here
  · obtain ⟨open_, none, _⟩ := going c early
    simp [open_, none]
  rw [mem_singleton.mp here]
  rcases why with stop | length
  · simp [final, stop]
  · simp [final, length]

/-- The log-probabilities that are shown for some tokens of a chat. -/
def shownChat (ctx : ServerContext M) (req : GenerationRequest)
    (logprobs : List (SampledToken M.Logit)) : List (TokenLogprob M) :=
  if req.wantLogprobs then chatLogprobsJson ctx logprobs req.topLogprobs else []

/-- Those of a completion, with the running offset. -/
def shownCompletion (ctx : ServerContext M) (req : GenerationRequest) (k : Nat)
    (logprobs : List (SampledToken M.Logit)) : CompletionLogprobs M × Nat :=
  if req.wantLogprobs then
    completionLogprobsJson ctx logprobs req.topLogprobs (echoed req (k / req.n)).length 0
  else ({}, 0)

/-- What the frames of a chat have added up to. -/
structure ShowsChat (ctx : ServerContext M) (req : GenerationRequest)
    (seen : List (OutputChunk M)) (frames : List (Frame M)) : Prop where
  text : frames.flatMap Frame.text = seen.flatMap (fun c => c.text)
  logprobs : frames.flatMap Frame.chatLogprobs =
    shownChat ctx req (seen.flatMap (fun c => c.logprobs))
  finish : frames.filterMap Frame.finish = seen.filterMap chunkFinish

theorem shownChat_append (first second : List (SampledToken M.Logit)) :
    shownChat ctx req (first ++ second) = shownChat ctx req first ++ shownChat ctx req second := by
  unfold shownChat
  split
  · simp [chatLogprobsJson]
  · rfl

theorem plainFrames_parts (req : GenerationRequest) (index : Nat) (logprobs : Option (List (TokenLogprob M)))
    {c : OutputChunk M} (ends : c.finished = true ↔ c.finishReason ≠ .none) :
    (plainFrames req index logprobs c).flatMap Frame.text = c.text ∧
      (plainFrames req index logprobs c).flatMap Frame.chatLogprobs = logprobs.getD [] ∧
      (plainFrames req index logprobs c).filterMap Frame.finish = [c].filterMap chunkFinish := by
  have content : ∀ frames : List (Frame M), frames = (if c.text.isEmpty && logprobs.isNone then []
      else [chatChunkJson req index (.content c.text) logprobs .none []]) →
      frames.flatMap Frame.text = c.text ∧ frames.flatMap Frame.chatLogprobs = logprobs.getD [] ∧
        frames.filterMap Frame.finish = [] := by
    rintro frames rfl
    split
    · rename_i none
      simp only [Bool.and_eq_true, List.isEmpty_iff, Option.isNone_iff_eq_none] at none
      simp [none]
    · exact ⟨append_nil _, append_nil _, rfl⟩
  have final : ∀ frames : List (Frame M), frames = (if c.finished then
      [chatChunkJson req index .empty none c.finishReason c.stopReason] else []) →
      frames.flatMap Frame.text = [] ∧ frames.flatMap Frame.chatLogprobs = [] ∧
        frames.filterMap Frame.finish = [c].filterMap chunkFinish := by
    rintro frames rfl
    split
    · exact ⟨rfl, rfl, rfl⟩
    rename_i going
    have none : c.finishReason = .none := by
      by_contra some
      exact going (ends.mpr some)
    simp [chunkFinish, finishOf, none]
  obtain ⟨text, entries, none⟩ := content _ rfl
  obtain ⟨noText, noEntries, finish⟩ := final _ rfl
  refine ⟨?_, ?_, ?_⟩
  · rw [plainFrames, flatMap_append, text, noText, append_nil]
  · rw [plainFrames, flatMap_append, entries, noEntries, append_nil]
  · rw [plainFrames, filterMap_append, none, finish, nil_append]

/-- The role adds nothing. -/
theorem roleFrames_parts (req : GenerationRequest) (index : Nat) (choice : Choice) :
    (roleFrames req index choice : List (Frame M)).flatMap Frame.text = [] ∧
      (roleFrames req index choice : List (Frame M)).flatMap Frame.chatLogprobs = [] ∧
      (roleFrames req index choice : List (Frame M)).filterMap Frame.finish = [] := by
  unfold roleFrames
  split <;> exact ⟨rfl, rfl, rfl⟩

theorem chatLogprobs_shown (c : OutputChunk M) :
    (chatLogprobs ctx req c).getD [] = shownChat ctx req c.logprobs := by
  unfold chatLogprobs shownChat
  cases req.wantLogprobs with
  | false => rfl
  | true =>
    cases c.logprobs with
    | nil => rfl
    | cons sampled logprobs => rfl

/-- The frames of one chunk of a chat. -/
theorem chatFrames_shows (plain : req.parseToolCalls = false) (r : ChoiceResult M)
    (choice : Choice) {c : OutputChunk M} (ends : c.finished = true ↔ c.finishReason ≠ .none) :
    ShowsChat ctx req [c] (chatFrames ctx req r choice c).1 := by
  obtain ⟨noText, noEntries, none⟩ := roleFrames_parts (M := M) req r.index choice
  obtain ⟨text, entries, finish⟩ := plainFrames_parts req r.index (chatLogprobs ctx req c) ends
  have shape : (chatFrames ctx req r choice c).1 =
      roleFrames req r.index choice ++ plainFrames req r.index (chatLogprobs ctx req c) c := by
    rw [chatFrames, plain]
    rfl
  rw [shape]
  refine ⟨?_, ?_, ?_⟩
  · rw [flatMap_append, noText, text]
    simp
  · rw [flatMap_append, noEntries, entries, chatLogprobs_shown]
    simp
  · rw [filterMap_append, none, finish]
    rfl

theorem Rendered.shows_chat (chat : req.kind = .chat) (plain : req.parseToolCalls = false)
    (completed : Completed stream) (rendered : Rendered ctx req k stream seen frames choice) :
    ShowsChat ctx req seen frames := by
  induction rendered with
  | nil =>
    refine ⟨rfl, ?_, rfl⟩
    unfold shownChat
    split <;> rfl
  | @chunk seen frames choice before c ahead within ih =>
    have member : c ∈ stream := within.subset (by simp)
    have one : ShowsChat ctx req [c] _ := chatFrames_shows plain
      (accumulated req k (seen ++ c :: ahead)) choice (completed.finish_iff c member)
    rw [framesFor_eq (completed.error c member), chat]
    dsimp only
    refine ⟨?_, ?_, ?_⟩
    · rw [flatMap_append, flatMap_append, ih.text, one.text]
    · rw [flatMap_append, flatMap_append, ih.logprobs, one.logprobs, shownChat_append]
    · rw [filterMap_append, filterMap_append, ih.finish, one.finish]

/-- What the frames of a completion have added up to, and what the stream remembers of it. -/
structure ShowsCompletion (ctx : ServerContext M) (req : GenerationRequest) (k : Nat)
    (seen : List (OutputChunk M)) (frames : List (Frame M)) (choice : Choice) : Prop where
  echo : choice.echoSent = (req.echo && !seen.isEmpty)
  offset : choice.lpOffset = (shownCompletion ctx req k (seen.flatMap (fun c => c.logprobs))).2
  text : frames.flatMap Frame.text =
    (if seen.isEmpty then [] else echoed req (k / req.n)) ++ seen.flatMap (fun c => c.text)
  logprobs : .join (frames.map Frame.completionLogprobs) =
    (shownCompletion ctx req k (seen.flatMap (fun c => c.logprobs))).1
  finish : frames.filterMap Frame.finish = seen.filterMap chunkFinish

/-- The text and the log-probabilities of one frame of a completion. -/
def completionText (req : GenerationRequest) (k : Nat) (choice : Choice) (c : OutputChunk M) :
    Bytes :=
  if req.echo && !choice.echoSent then echoed req (k / req.n) ++ c.text else c.text

def completionArrays (ctx : ServerContext M) (req : GenerationRequest) (k : Nat) (choice : Choice)
    (c : OutputChunk M) : CompletionLogprobs M × Nat :=
  completionLogprobsJson ctx c.logprobs req.topLogprobs (echoed req (k / req.n)).length
    choice.lpOffset

theorem completionFrames_parts (prompt : r.promptIndex = k / req.n) (choice : Choice)
    {c : OutputChunk M} (ends : c.finished = true ↔ c.finishReason ≠ .none) :
    (completionFrames ctx req r choice c).1.flatMap Frame.text = completionText req k choice c ∧
      .join ((completionFrames ctx req r choice c).1.map Frame.completionLogprobs) =
        (if req.wantLogprobs then (completionArrays ctx req k choice c).1 else {}) ∧
      (completionFrames ctx req r choice c).1.filterMap Frame.finish =
        [c].filterMap chunkFinish := by
  have arrays : (if req.wantLogprobs && !c.logprobs.isEmpty then
      some (completionArrays ctx req k choice c).1 else none).getD {} =
      if req.wantLogprobs then (completionArrays ctx req k choice c).1 else {} := by
    cases req.wantLogprobs with
    | false => rfl
    | true =>
      unfold completionArrays
      cases c.logprobs with
      | nil => rfl
      | cons sampled logprobs => rfl
  rw [← arrays]
  unfold completionFrames
  dsimp only
  rw [prompt, ← completionText, ← completionArrays]
  generalize (if req.wantLogprobs && !c.logprobs.isEmpty then
    some (completionArrays ctx req k choice c).1 else none) = logprobs
  generalize completionText req k choice c = text
  split
  · rename_i skip
    simp only [Bool.and_eq_true, List.isEmpty_iff, Option.isNone_iff_eq_none,
      Bool.not_eq_true', ] at skip
    obtain ⟨⟨noText, noEntries⟩, going⟩ := skip
    have none : c.finishReason = .none := by
      by_contra some
      rw [ends.mpr some] at going
      cases going
    rw [noText, noEntries]
    exact ⟨rfl, rfl, by simp [chunkFinish, finishOf, none]⟩
  · exact ⟨append_nil _, CompletionLogprobs.join_one _, rfl⟩

/-- The prompt is repeated in front of the first chunk. -/
theorem completionText_eq (echo : choice.echoSent = (req.echo && !seen.isEmpty)) (c : OutputChunk M) :
    completionText req k choice c =
      (if seen.isEmpty then echoed req (k / req.n) else []) ++ c.text := by
  rw [completionText, echo, echoed]
  cases req.echo <;> cases seen.isEmpty <;> rfl

theorem shownCompletion_append (first second : List (SampledToken M.Logit)) :
    shownCompletion ctx req k (first ++ second) =
      if req.wantLogprobs then
        let arrays := completionLogprobsJson ctx second req.topLogprobs
          (echoed req (k / req.n)).length (shownCompletion ctx req k first).2
        ((shownCompletion ctx req k first).1.append arrays.1, arrays.2)
      else ({}, 0) := by
  unfold shownCompletion
  cases req.wantLogprobs with
  | false => rfl
  | true => exact completionLogprobsJson_append first second 0

/-- The running offset behind a chunk. -/
theorem completionFrames_offset (prompt : r.promptIndex = k / req.n) (choice : Choice)
    (c : OutputChunk M) :
    (completionFrames ctx req r choice c).2.lpOffset =
      if req.wantLogprobs then (completionArrays ctx req k choice c).2 else choice.lpOffset := by
  unfold completionFrames
  dsimp only
  rw [prompt, ← completionArrays]
  cases req.wantLogprobs with
  | false => rfl
  | true =>
    unfold completionArrays
    cases c.logprobs with
    | nil => rfl
    | cons sampled logprobs => rfl

theorem Rendered.shows_completion (completion : req.kind = .completion)
    (completed : Completed stream) (rendered : Rendered ctx req k stream seen frames choice) :
    ShowsCompletion ctx req k seen frames choice := by
  induction rendered with
  | nil =>
    have none : shownCompletion ctx req k [] = ({}, 0) := by
      unfold shownCompletion
      split <;> rfl
    refine ⟨by simp, ?_, rfl, ?_, rfl⟩
    · rw [flatMap_nil, none]
    · rw [flatMap_nil, none]
      rfl
  | @chunk seen frames choice before c ahead within ih =>
    have member : c ∈ stream := within.subset (by simp)
    have prompt := accumulated_promptIndex req k (seen ++ c :: ahead)
    have parts := @completionFrames_parts M ctx req k _ prompt choice c
      (completed.finish_iff c member)
    have offset := @completionFrames_offset M ctx req k _ prompt choice c
    obtain ⟨text, entries, finish⟩ := parts
    rw [framesFor_eq (completed.error c member), completion]
    dsimp only
    have shown : (seen ++ [c]).flatMap (fun c => c.logprobs) =
        seen.flatMap (fun c => c.logprobs) ++ c.logprobs := by simp
    refine ⟨?_, ?_, ?_, ?_, ?_⟩
    · change (req.echo || choice.echoSent) = _
      rw [ih.echo]
      cases req.echo <;> simp
    · rw [offset, shown, shownCompletion_append, completionArrays, ih.offset]
      split
      · rfl
      · rename_i quiet
        simp [shownCompletion, quiet]
    · rw [flatMap_append, ih.text, text, completionText_eq ih.echo]
      cases seen with
      | nil => simp
      | cons first seen => simp
    · rw [map_append, CompletionLogprobs.join_append, ih.logprobs, entries, shown,
        shownCompletion_append, completionArrays, ih.offset]
      split
      · rfl
      · rename_i quiet
        simp [shownCompletion, quiet, CompletionLogprobs.append]
    · rw [filterMap_append, filterMap_append, ih.finish, finish]

/-- The finish reason of a result is that of its last chunk, and of no other one. -/
theorem Completed.accumulated_finish (completed : Completed stream) :
    stream.filterMap chunkFinish = [((accumulated req k stream).finish,
        some (stopReasonJson (accumulated req k stream).stopReason))] ∧
      ((accumulated req k stream).finish = .stop ∨ (accumulated req k stream).finish = .length) := by
  obtain ⟨front, last, rfl, going, final, why, _⟩ := completed.shape
  have none : front.filterMap chunkFinish = [] := by
    rw [filterMap_eq_nil_iff]
    intro c member
    simp [chunkFinish, finishOf, (going c member).2.1]
  have finish : (accumulated req k (front ++ [last])).finish = last.finishReason := by
    simp [accumulated_concat, ChoiceResult.apply, final]
  have reason : (accumulated req k (front ++ [last])).stopReason = last.stopReason := by
    simp [accumulated_concat, ChoiceResult.apply, final]
  rw [finish, reason, filterMap_append, none]
  refine ⟨?_, why⟩
  rcases why with stop | length
  · simp [chunkFinish, finishOf, chunkStop, stop]
  · simp [chunkFinish, finishOf, chunkStop, length]

end Chunks

section Choices

variable {ctx : ServerContext M} {req : GenerationRequest} {k : Nat}
  {stream : List (OutputChunk M)} {sent : List (Frame M)}

theorem chatChoice_plain (plain : req.parseToolCalls = false) (r : ChoiceResult M) :
    chatChoice ctx req r =
      { index := r.index
        content := some r.text
        toolCalls := []
        logprobs := if req.wantLogprobs then
            some (chatLogprobsJson ctx r.logprobs req.topLogprobs) else none
        finishReason := r.finish
        stopReason := stopReasonJson r.stopReason } := by
  rw [chatChoice, plain]
  rfl

variable (completed : Completed stream) (inside : k < req.totalChoices)
    (rendered : ∃ choice, Rendered ctx req k stream stream (framesOf k sent) choice)

include completed inside rendered

theorem chatChoice_streamed (chat : req.kind = .chat) (plain : req.parseToolCalls = false) :
    (chatChoice ctx req (accumulated req k stream)).Streamed sent := by
  obtain ⟨choice, rendered⟩ := rendered
  have shows := rendered.shows_chat chat plain completed
  rw [chatChoice_plain plain]
  refine ⟨?_, ?_, ?_⟩
  · dsimp only
    rw [accumulated_index inside, shows.text, accumulated_text]
  · dsimp only
    rw [accumulated_index inside, shows.logprobs, accumulated_logprobs, shownChat]
    split <;> rfl
  · dsimp only
    rw [accumulated_index inside, shows.finish]
    exact completed.accumulated_finish.1

theorem completionChoice_streamed (completion : req.kind = .completion) :
    (completionChoice ctx req (accumulated req k stream)).Streamed sent := by
  obtain ⟨choice, rendered⟩ := rendered
  have shows := rendered.shows_completion completion completed
  have some : stream.isEmpty = false := by
    obtain ⟨front, last, rfl, _⟩ := completed.shape
    simp
  refine ⟨?_, ?_, ?_⟩
  · dsimp only [completionChoice]
    rw [accumulated_index inside, accumulated_promptIndex, shows.text, accumulated_text, some]
    rfl
  · dsimp only [completionChoice]
    rw [accumulated_index inside, accumulated_promptIndex, shows.logprobs, accumulated_logprobs,
      shownCompletion]
    split <;> rfl
  · dsimp only [completionChoice]
    rw [accumulated_index inside, shows.finish]
    exact completed.accumulated_finish.1

end Choices

end Iian
