import Iian.Answers
import Iian.CallRegions

/- The stream of a chat with tools against its answer. -/
namespace Iian

open List
open Lib (take_leads)
open Lib.Utf8 (Valid Cut)
open ToolCalls (trim streamable shownContent startsBlank)

variable {M : Model} {ctx : ServerContext M} {req : GenerationRequest} {k : Nat}
  {stream seen chunks : List (OutputChunk M)} {r : ChoiceResult M} {c : OutputChunk M}
  {frames : List (Frame M)} {choice : Choice}

section Parts

/-- The calls that a frame shows. -/
def Frame.calls : Frame M → List ToolCall
  | .chat _ chunk =>
    match chunk.delta with
    | .toolCalls calls => calls
    | .role | .content _ | .empty => []
  | .completion .. | .usage .. | .error _ | .done => []

/-- The frames of a choice with tools add up to its part of the answer, the content up to
blanks around it. -/
structure ChatChoice.ToolsStreamed (frames : List (Frame M)) (choice : ChatChoice M) : Prop where
  content : trim ((framesOf choice.index frames).flatMap Frame.text) = trim (choice.content.getD [])
  calls : (framesOf choice.index frames).flatMap Frame.calls = choice.toolCalls
  finish : (framesOf choice.index frames).filterMap Frame.finish =
    [(choice.finishReason, some choice.stopReason)]

/-- What some frames show together. -/
structure AddsUp (frames : List (Frame M)) (text : Bytes) (calls : List ToolCall)
    (finish : List (FinishReason × Option StopReason)) : Prop where
  text : frames.flatMap Frame.text = text
  calls : frames.flatMap Frame.calls = calls
  finish : frames.filterMap Frame.finish = finish

theorem AddsUp.append {front back : List (Frame M)} {text more : Bytes}
    {calls others : List ToolCall} {finish final : List (FinishReason × Option StopReason)}
    (first : AddsUp front text calls finish) (second : AddsUp back more others final) :
    AddsUp (front ++ back) (text ++ more) (calls ++ others) (finish ++ final) := by
  refine ⟨?_, ?_, ?_⟩
  · rw [flatMap_append, first.text, second.text]
  · rw [flatMap_append, first.calls, second.calls]
  · rw [filterMap_append, first.finish, second.finish]

theorem AddsUp.nil : AddsUp ([] : List (Frame M)) [] [] [] := ⟨rfl, rfl, rfl⟩

theorem AddsUp.content (req : GenerationRequest) (index : Nat) (text : Bytes)
    (logprobs : Option (List (TokenLogprob M))) :
    AddsUp [chatChunkJson req index (.content text) logprobs .none []] text [] [] :=
  ⟨append_nil _, rfl, rfl⟩

theorem AddsUp.content_if (req : GenerationRequest) (index : Nat) (text : Bytes)
    (logprobs : Option (List (TokenLogprob M))) (shown : Prop) [Decidable shown] :
    AddsUp (if shown then [chatChunkJson req index (.content text) logprobs .none []] else [])
      (if shown then text else []) [] [] := by
  split
  · exact .content ..
  · exact .nil

theorem roleFrames_addsUp (req : GenerationRequest) (index : Nat) (choice : Choice) :
    AddsUp (roleFrames req index choice : List (Frame M)) [] [] [] := by
  unfold roleFrames
  split <;> exact ⟨rfl, rfl, rfl⟩

/-- The text of some chunks. -/
def textOf (chunks : List (OutputChunk M)) : Bytes := chunks.flatMap (fun c => c.text)

theorem textOf_leads {longer : List (OutputChunk M)} (leads : chunks <+: longer) :
    textOf chunks <+: textOf longer := by
  obtain ⟨more, rfl⟩ := leads
  rw [textOf, textOf, flatMap_append]
  exact prefix_append _ _

/-- What `parse_tool_calls` makes of a text. -/
def parsedOf (ctx : ServerContext M) (req : GenerationRequest) (text : Bytes) : ParsedAssistant :=
  ToolCalls.parseToolCalls ctx.numbers text req.toolFormat

/-- The part of the answer for the choice `k`. -/
def answerOf (ctx : ServerContext M) (req : GenerationRequest) (k : Nat)
    (stream : List (OutputChunk M)) : ChatChoice M :=
  chatChoice ctx req (accumulated req k stream)

section

variable (chat : req.kind = .chat) (tools : req.parseToolCalls = true) (quiet : c.error = "")
include chat tools quiet

theorem framesFor_going (going : c.finished = false) :
    framesFor ctx req r choice c =
      (roleFrames req r.index choice ++
          (heldFrames req r choice.contentSent (chatLogprobs ctx req c)).1,
        { choice with
          roleSent := true
          contentSent := (heldFrames req r choice.contentSent (chatLogprobs ctx req c)).2 }) := by
  rw [framesFor_eq quiet, chat]
  simp [chatFrames, tools, going]

theorem framesFor_closing (final : c.finished = true) :
    (framesFor ctx req r choice c).1 = roleFrames req r.index choice ++
      closingFrames ctx req r choice.contentSent (chatLogprobs ctx req c) c := by
  rw [framesFor_eq quiet, chat]
  simp [chatFrames, tools, final]

end

end Parts

section Holding

/-- How much `streamable_prefix` releases of some chunks. -/
def released (req : GenerationRequest) (chunks : List (OutputChunk M)) : Nat :=
  streamable (textOf chunks) req.toolFormat

theorem released_le (req : GenerationRequest) (chunks : List (OutputChunk M)) :
    released req chunks ≤ (textOf chunks).length := ToolCalls.streamable_le_length _ _

theorem released_mono {longer : List (OutputChunk M)} (leads : chunks <+: longer) :
    released req chunks ≤ released req longer :=
  ToolCalls.streamable_mono (textOf_leads leads) _

/-- Chunks that may have been added to the result of a choice before the last one is shown: none,
or some with one that is not the last. -/
def Ahead (stream chunks : List (OutputChunk M)) : Prop :=
  chunks <+: stream ∧ (chunks = [] ∨ ∃ c ∈ chunks, c.finished = false)

/-- What has been streamed of a choice for the chunks before its last one: the start of its text,
up to the place that `streamable_prefix` has found in these chunks or in more of them. -/
structure HoldsBack (req : GenerationRequest) (stream seen : List (OutputChunk M))
    (frames : List (Frame M)) (choice : Choice) : Prop where
  shows : AddsUp frames ((textOf stream).take choice.contentSent) [] []
  sent : ∃ chunks, seen <+: chunks ∧ Ahead stream chunks ∧ choice.contentSent = released req chunks

theorem HoldsBack.start (req : GenerationRequest) (stream : List (OutputChunk M)) :
    HoldsBack req stream [] [] {} := by
  refine ⟨⟨?_, rfl, rfl⟩, [], prefix_rfl, ⟨ nil_prefix, .inl rfl⟩, ?_⟩
  · rw [take_zero]
    rfl
  · exact (ToolCalls.streamable_nil _).symm

theorem HoldsBack.held (holds : HoldsBack req stream seen frames choice)
    (within : Ahead stream chunks) (more : seen ++ [c] <+: chunks) (text : r.text = textOf chunks)
    (logprobs : Option (List (TokenLogprob M))) :
    HoldsBack req stream (seen ++ [c])
      (frames ++ (heldFrames req r choice.contentSent logprobs).1)
      { choice with contentSent := (heldFrames req r choice.contentSent logprobs).2 } := by
  unfold heldFrames
  rw [text, ← released]
  dsimp only
  split
  · rename_i grows
    refine ⟨?_, chunks, more, within, rfl⟩
    have bound := released_le req chunks
    have both := holds.shows.append (.content req r.index (((textOf chunks).drop
      choice.contentSent).take (released req chunks - choice.contentSent)) logprobs)
    rw [← take_leads (textOf_leads within.1) (Nat.le_trans (Nat.le_of_lt grows) bound),
      ← take_add, Nat.add_sub_cancel' (Nat.le_of_lt grows),
      take_leads (textOf_leads within.1) bound] at both
    exact both
  rename_i done
  have stays : ∀ shown : List (Frame M), AddsUp shown [] [] [] →
      HoldsBack req stream (seen ++ [c]) (frames ++ shown) choice := by
    intro shown none
    have both := holds.shows.append none
    rw [append_nil] at both
    refine ⟨both, ?_⟩
    -- what was released before cannot be less than what is released now
    obtain ⟨old, leads, ahead, sent⟩ := holds.sent
    rcases prefix_or_prefix_of_prefix ahead.1 within.1 with short | long
    · refine ⟨chunks, more, within, Nat.le_antisymm ?_ (Nat.le_of_not_lt done)⟩
      rw [sent]
      exact released_mono short
    · exact ⟨old, more.trans long, ahead, sent⟩
  split
  · exact stays _ ⟨rfl, rfl, rfl⟩
  · exact stays _ .nil

theorem Rendered.holds_back (chat : req.kind = .chat) (tools : req.parseToolCalls = true)
    (completed : Completed stream) (rendered : Rendered ctx req k stream seen frames choice)
    (going : ∀ c ∈ seen, c.finished = false) : HoldsBack req stream seen frames choice := by
  induction rendered with
  | nil => exact .start req stream
  | @chunk seen frames choice before c ahead within ih =>
    have member : c ∈ seen ++ c :: ahead := by simp
    have holds := ih fun other early => going other (mem_append_left _ early)
    have open_ := going c (mem_append_right _ mem_cons_self)
    rw [framesFor_going chat tools (completed.error c (within.subset member)) open_]
    have role := holds.shows.append
      (roleFrames_addsUp req (accumulated req k (seen ++ c :: ahead)).index choice)
    rw [append_nil] at role
    have start : HoldsBack req stream seen (frames ++ roleFrames req
        (accumulated req k (seen ++ c :: ahead)).index choice)
        { choice with roleSent := true } := ⟨role, holds.sent⟩
    have next := start.held ⟨within, .inr ⟨c, member, open_⟩⟩
      (show seen ++ [c] <+: seen ++ c :: ahead by simp)
      (accumulated_text req k (seen ++ c :: ahead)) (chatLogprobs ctx req c)
    rw [append_assoc] at next
    exact next

end Holding

section Closing

/-- The last chunk of a chat with tools: the content, the calls and the finish reason. -/
theorem closingFrames_addsUp (ctx : ServerContext M) (req : GenerationRequest)
    (sent : Nat) (logprobs : Option (List (TokenLogprob M)))
    (why : c.finishReason = .stop ∨ c.finishReason = .length)
    (finish : r.finish = c.finishReason) (reason : r.stopReason = c.stopReason)
    (tools : req.parseToolCalls = true) :
    ∃ more, AddsUp (closingFrames ctx req r sent logprobs c) more (chatChoice ctx req r).toolCalls
        [((chatChoice ctx req r).finishReason, some (chatChoice ctx req r).stopReason)] ∧
      r.text.take sent ++ more =
        if (parsedOf ctx req r.text).toolCalls = [] then r.text
        else shownContent (r.text.take sent) (parsedOf ctx req r.text).content := by
  have final : ∀ finish : FinishReason, finish ≠ .none →
      AddsUp [(chatChunkJson req r.index .empty none finish c.stopReason : Frame M)] [] []
        [(finish, some (stopReasonJson c.stopReason))] := by
    intro finish some
    refine ⟨rfl, rfl, ?_⟩
    simp [chatChunkJson, Frame.finish, finishOf, chunkStop, some]
  have ended : c.finishReason ≠ .none := by
    rcases why with stop | length
    · rw [stop]
      decide
    · rw [length]
      decide
  unfold closingFrames chatChoice parsedOf
  dsimp only
  rw [tools, if_pos rfl, finish, reason]
  generalize ToolCalls.parseToolCalls ctx.numbers r.text req.toolFormat = parsed
  split
  · rename_i none
    rw [if_pos (List.isEmpty_iff.mp none)]
    refine ⟨_, (AddsUp.content_if ..).append (final _ ended), ?_⟩
    rw [append_nil]
    split
    · exact take_append_drop _ _
    · rename_i all
      rw [append_nil, take_of_length_le (Nat.le_of_not_lt all)]
  · rename_i some
    rw [if_neg fun none => some (List.isEmpty_iff.mpr none)]
    have calls : AddsUp [(chatChunkJson req r.index (.toolCalls parsed.toolCalls) logprobs .none []
        : Frame M)] [] parsed.toolCalls [] := ⟨rfl, append_nil _, rfl⟩
    have last := final (if c.finishReason = .stop then .toolCalls else c.finishReason) (by
      split
      · decide
      · exact ended)
    refine ⟨_, ?_, rfl⟩
    have both := fun shown => (AddsUp.content_if req r.index (parsed.content.drop
      (r.text.take sent).length) none (shown = true)).append (calls.append last)
    simp only [append_nil, nil_append, singleton_append] at both
    exact both _

theorem Rendered.final {front : List (OutputChunk M)} {last : OutputChunk M}
    (rendered : Rendered ctx req k stream seen frames choice) (whole : seen = stream)
    (shape : stream = front ++ [last]) :
    ∃ before old, Rendered ctx req k stream front before old ∧
      frames = before ++ (framesFor ctx req (accumulated req k stream) old last).1 := by
  cases rendered with
  | nil =>
    rw [shape] at whole
    simp at whole
  | @chunk seen frames choice before c ahead within =>
    obtain ⟨rfl, same⟩ := append_inj' (whole.trans shape) rfl
    cases same
    have none : ahead = [] := by
      have length := within.length_le
      rw [shape] at length
      simpa using length
    rw [none, ← shape]
    exact ⟨_, _, before, rfl⟩

/-- The content that was streamed before the end can be completed: there are no calls, nothing
was streamed, the text does not start with blanks, or nothing has to be added. -/
def ContentKept (ctx : ServerContext M) (req : GenerationRequest) (text : Bytes) (sent : Nat) :
    Prop :=
  (parsedOf ctx req text).toolCalls = [] ∨ sent = 0 ∨ startsBlank text = false ∨
    trim (text.take sent) = (parsedOf ctx req text).content

instance (ctx : ServerContext M) (req : GenerationRequest) (text : Bytes) (sent : Nat) :
    Decidable (ContentKept ctx req text sent) :=
  inferInstanceAs (Decidable (_ ∨ _))

theorem answerOf_content (tools : req.parseToolCalls = true) :
    (answerOf ctx req k stream).content.getD [] =
      if (parsedOf ctx req (textOf stream)).toolCalls = [] then textOf stream
      else (parsedOf ctx req (textOf stream)).content := by
  unfold answerOf chatChoice parsedOf
  dsimp only
  rw [tools, if_pos rfl, accumulated_text, ← textOf]
  generalize ToolCalls.parseToolCalls ctx.numbers (textOf stream) req.toolFormat = parsed
  by_cases none : parsed.toolCalls = []
  · rw [if_pos (List.isEmpty_iff.mpr none), if_pos none]
    rfl
  rw [if_neg (by simpa using none), if_neg none]
  dsimp only
  split
  · rename_i blank
    rw [List.isEmpty_iff.mp blank]
    rfl
  · rfl

theorem answerOf_index (tools : req.parseToolCalls = true) (inside : k < req.totalChoices) :
    (answerOf ctx req k stream).index = k := by
  refine Eq.trans ?_ (accumulated_index inside stream)
  unfold answerOf chatChoice
  dsimp only
  rw [tools, if_pos rfl]
  split <;> rfl

theorem Completed.parts {front : List (OutputChunk M)} {last : OutputChunk M}
    (completed : Completed stream) (shape : stream = front ++ [last]) :
    (∀ c ∈ front, c.finished = false) ∧ last.finished = true ∧
      (last.finishReason = .stop ∨ last.finishReason = .length) := by
  obtain ⟨others, final, whole, going, finished, why, _⟩ := completed.shape
  rw [shape] at whole
  obtain ⟨rfl, same⟩ := append_inj' whole rfl
  cases same
  exact ⟨fun c member => (going c member).1, finished, why⟩

section

variable (chat : req.kind = .chat) (tools : req.parseToolCalls = true)
  (completed : Completed stream) {front : List (OutputChunk M)} {last : OutputChunk M}
  (shape : stream = front ++ [last]) {before : List (Frame M)} {old : Choice}
  (rendered : Rendered ctx req k stream front before old)
include chat tools completed shape rendered

/-- The frames of a choice, up to those for its last chunk. -/
theorem Rendered.addsUp :
    AddsUp (before ++ (framesFor ctx req (accumulated req k stream) old last).1)
      (if (parsedOf ctx req (textOf stream)).toolCalls = [] then textOf stream
        else shownContent ((textOf stream).take old.contentSent)
          (parsedOf ctx req (textOf stream)).content)
      (answerOf ctx req k stream).toolCalls
      [((answerOf ctx req k stream).finishReason,
        some (answerOf ctx req k stream).stopReason)] := by
  obtain ⟨going, final, why⟩ := completed.parts shape
  have holds := rendered.holds_back chat tools completed going
  have member : last ∈ stream := by
    rw [shape]
    exact mem_append_right _ mem_cons_self
  have result : (accumulated req k stream).finish = last.finishReason ∧
      (accumulated req k stream).stopReason = last.stopReason := by
    rw [shape, accumulated_concat]
    simp [ChoiceResult.apply, final]
  obtain ⟨more, closing, text⟩ := closingFrames_addsUp ctx req old.contentSent
    (chatLogprobs ctx req last) why result.1 result.2 tools
  rw [accumulated_text, ← textOf] at text
  have both := holds.shows.append ((roleFrames_addsUp req (accumulated req k stream).index
    old).append closing)
  rw [framesFor_closing chat tools (completed.error last member) final, ← text]
  exact both

/-- The frames of a choice agree with the answer exactly when the content could be completed. -/
theorem Rendered.streamed_iff (inside : k < req.totalChoices) {sent : List (Frame M)}
    (frames : framesOf k sent =
      before ++ (framesFor ctx req (accumulated req k stream) old last).1) :
    (answerOf ctx req k stream).ToolsStreamed sent ↔
      ContentKept ctx req (textOf stream) old.contentSent := by
  have all := rendered.addsUp chat tools completed shape
  rw [← frames] at all
  have index := @answerOf_index M ctx req k stream tools inside
  have content : (answerOf ctx req k stream).ToolsStreamed sent ↔
      trim ((framesOf k sent).flatMap Frame.text) =
        trim ((answerOf ctx req k stream).content.getD []) := by
    constructor
    · intro streamed
      have same := streamed.content
      rw [index] at same
      exact same
    · intro same
      refine ⟨?_, ?_, ?_⟩
      · rw [index]
        exact same
      · rw [index]
        exact all.calls
      · rw [index]
        exact all.finish
  rw [content, all.text, answerOf_content tools, ContentKept]
  by_cases none : (parsedOf ctx req (textOf stream)).toolCalls = []
  · rw [if_pos none, if_pos none]
    exact iff_of_true rfl (.inl none)
  rw [if_neg none, if_neg none]
  obtain ⟨place, back, parsed, ahead⟩ := ToolCalls.parseToolCalls_content none
  obtain ⟨chunks, _, within, sent⟩ :=
    (rendered.holds_back chat tools completed (completed.parts shape).1).sent
  have order : old.contentSent ≤ place := by
    rw [sent]
    exact ahead _ (textOf_leads within.1)
  rw [parsedOf, parsed, ToolCalls.trim_trim, ToolCalls.trim_shownContent order, ← parsed,
    ← parsedOf]
  simp [none]

end

end Closing

section Printing

variable {sent : Nat}

/-- What a stream with tools may show of a choice is well-formed UTF-8: every part of the content
that is released before the end, and at the end the content and the calls of the answer. The
log-probabilities of the last chunk are shown with calls or with content. -/
structure ToolsPrintable (ctx : ServerContext M) (req : GenerationRequest) (k : Nat)
    (stream : List (OutputChunk M)) : Prop where
  header : req.HeaderPrints
  cut : ∀ chunks, Ahead stream chunks → Cut (textOf chunks) (released req chunks)
  content : Valid ((answerOf ctx req k stream).content.getD [])
  calls : ∀ text ∈ callStrings (answerOf ctx req k stream).toolCalls, Valid text
  reason : ∀ c ∈ stream, c.finished = true → Valid c.stopReason
  pieces : ∀ c ∈ stream, (c.finished = false ∨ (answerOf ctx req k stream).toolCalls ≠ [] ∨
      released req stream.dropLast < (textOf stream).length) →
    req.wantLogprobs = true → ∀ sampled ∈ c.logprobs, SampledPrints req.topLogprobs sampled

/-- What decides about a choice with tools, whatever the schedule: all that may be shown is
well-formed, and the content that may have been streamed when its last chunk comes can be
completed. -/
structure ToolsAgree (ctx : ServerContext M) (req : GenerationRequest) (k : Nat)
    (stream : List (OutputChunk M)) : Prop where
  prints : ToolsPrintable ctx req k stream
  kept : ∀ chunks, stream.dropLast <+: chunks → Ahead stream chunks →
    ContentKept ctx req (textOf stream) (released req chunks)

theorem Frame.text_valid {frame : Frame M} (prints : frame.prints = true) : Valid frame.text := by
  rw [Frame.prints_iff] at prints
  unfold Frame.text
  split
  · split
    · rename_i text delta
      apply prints
      simp [Frame.strings, ChatChunk.strings, delta, Delta.strings]
    · exact .nil
    · exact .nil
    · exact .nil
  · exact prints _ (mem_append_right _ mem_cons_self)
  all_goals exact .nil

theorem chatChunkJson_text {index : Nat} {delta : Delta}
    {logprobs : Option (List (TokenLogprob M))} {finish : FinishReason} {reason : Bytes} :
    (chatChunkJson req index delta logprobs finish reason).text =
      match delta with
      | .content text => text
      | .role | .toolCalls _ | .empty => [] := rfl

theorem closingFrames_header
    (all : ∀ frame ∈ closingFrames ctx req r sent (chatLogprobs ctx req c) c, frame.prints = true) :
    req.HeaderPrints := by
  unfold closingFrames at all
  dsimp only at all
  split at all <;>
    exact (chatChunkJson_prints.mp (all _ (mem_append_right _ mem_cons_self))).1

section

variable (header : req.HeaderPrints)
include header

theorem heldFrames_prints_iff :
    (∀ frame ∈ (heldFrames req r sent (chatLogprobs ctx req c)).1, frame.prints = true) ↔
      Valid ((heldFrames req r sent (chatLogprobs ctx req c)).1.flatMap Frame.text) ∧
        (req.wantLogprobs = true →
          ∀ sampled ∈ c.logprobs, SampledPrints req.topLogprobs sampled) := by
  rw [← @chatLogprobs_strings M ctx req c]
  unfold heldFrames
  generalize chatLogprobs ctx req c = logprobs
  dsimp only
  split
  · simp [chatChunkJson_prints, chatChunkJson_text, Delta.strings, header]
  split
  · simp [chatChunkJson_prints, chatChunkJson_text, Delta.strings, header, Valid.nil]
  · rename_i none
    rw [Option.not_isSome_iff_eq_none] at none
    simp [none, Valid.nil]

theorem closingFrames_prints_iff (tools : req.parseToolCalls = true)
    (why : c.finishReason ≠ .none) :
    (∀ frame ∈ closingFrames ctx req r sent (chatLogprobs ctx req c) c, frame.prints = true) ↔
      Valid ((closingFrames ctx req r sent (chatLogprobs ctx req c) c).flatMap Frame.text) ∧
        (∀ text ∈ callStrings (chatChoice ctx req r).toolCalls, Valid text) ∧
        ((chatChoice ctx req r).toolCalls ≠ [] ∨ sent < r.text.length → req.wantLogprobs = true →
          ∀ sampled ∈ c.logprobs, SampledPrints req.topLogprobs sampled) ∧ Valid c.stopReason := by
  have other : (if c.finishReason = .stop then .toolCalls else c.finishReason) ≠ .none := by
    split
    · decide
    · exact why
  rw [← @chatLogprobs_strings M ctx req c]
  unfold closingFrames chatChoice
  generalize chatLogprobs ctx req c = logprobs
  dsimp only
  rw [tools, if_pos rfl]
  generalize ToolCalls.parseToolCalls ctx.numbers r.text req.toolFormat = parsed
  by_cases none : parsed.toolCalls = []
  · rw [if_pos (List.isEmpty_iff.mpr none), if_pos (List.isEmpty_iff.mpr none)]
    by_cases more : sent < r.text.length
    · simp [more, chatChunkJson_prints, chatChunkJson_text, Delta.strings, header, why, callStrings,
        and_assoc]
    · simp [more, chatChunkJson_prints, chatChunkJson_text, Delta.strings, header, why, callStrings,
        Valid.nil]
  · have some : ¬ parsed.toolCalls.isEmpty = true := fun empty => none (List.isEmpty_iff.mp empty)
    rw [if_neg some, if_neg some]
    dsimp only
    generalize (if c.finishReason = .stop then .toolCalls else c.finishReason) = finish at other ⊢
    split
    · simp [none, chatChunkJson_prints, chatChunkJson_text, Delta.strings, header, other, and_assoc]
    · simp [none, chatChunkJson_prints, chatChunkJson_text, Delta.strings, header, other, and_assoc,
        Valid.nil]

/-- What a chunk of a chat with tools shows. -/
theorem toolFrames_prints_iff (chat : req.kind = .chat)
    (tools : req.parseToolCalls = true) (none : c.error = "")
    (ends : c.finished = true → c.finishReason ≠ .none) :
    (∀ frame ∈ (framesFor ctx req r choice c).1, frame.prints = true) ↔
      Valid ((framesFor ctx req r choice c).1.flatMap Frame.text) ∧
        (c.finished = false ∨ (chatChoice ctx req r).toolCalls ≠ [] ∨
            choice.contentSent < r.text.length →
          req.wantLogprobs = true → ∀ sampled ∈ c.logprobs, SampledPrints req.topLogprobs sampled) ∧
        (c.finished = true → (∀ text ∈ callStrings (chatChoice ctx req r).toolCalls, Valid text) ∧
          Valid c.stopReason) := by
  have role : ∀ frame ∈ (roleFrames req r.index choice : List (Frame M)), frame.prints = true := by
    intro frame member
    rw [mem_ite_nil member]
    exact chatChunkJson_prints.mpr ⟨header, valid_nil, valid_nil, absurd rfl⟩
  have blank : (roleFrames req r.index choice : List (Frame M)).flatMap Frame.text = [] := by
    unfold roleFrames
    split <;> rfl
  cases final : c.finished with
  | false =>
    rw [framesFor_going chat tools none final, forall_mem_append, heldFrames_prints_iff header,
      flatMap_append, blank, nil_append]
    exact ⟨fun all => ⟨all.2.1, fun _ => all.2.2, nofun⟩,
      fun all => ⟨role, all.1, all.2.1 (.inl rfl)⟩⟩
  | true =>
    rw [framesFor_closing chat tools none final, forall_mem_append,
      closingFrames_prints_iff header tools (ends final), flatMap_append, blank, nil_append]
    constructor
    · rintro ⟨_, text, calls, pieces, reason⟩
      exact ⟨text, fun how => pieces (how.resolve_left nofun), fun _ => ⟨calls, reason⟩⟩
    · rintro ⟨text, pieces, closing⟩
      exact ⟨role, text, (closing rfl).1, fun how => pieces (.inr how), (closing rfl).2⟩

end

theorem HoldsBack.valid_iff (holds : HoldsBack req stream seen frames choice)
    (within : chunks <+: stream)
    (sent : choice.contentSent = released req chunks) :
    Valid (frames.flatMap Frame.text) ↔ Cut (textOf chunks) (released req chunks) := by
  rw [holds.shows.text, sent, ← take_leads (textOf_leads within) (released_le req chunks), Cut]

theorem ToolsPrintable.before (printable : ToolsPrintable ctx req k stream)
    (holds : HoldsBack req stream seen frames choice) : Valid (frames.flatMap Frame.text) := by
  obtain ⟨chunks, _, within, sent⟩ := holds.sent
  exact (holds.valid_iff within.1 sent).mpr (printable.cut chunks within)

theorem shownContent_valid {sent content : Bytes} (first : Valid sent) (valid : Valid content) :
    Valid (shownContent sent content) := by
  by_cases leads : sent <+: content
  · rw [ToolCalls.shownContent_goes leads]
    exact valid
  · rw [ToolCalls.shownContent_stays fun both => leads both.2]
    exact first

/-- A chunk is shown when the chunks before it have been shown. -/
theorem Completed.early (completed : Completed stream) {ahead : List (OutputChunk M)}
    (within : seen ++ c :: ahead <+: stream) : ∀ other ∈ seen, other.finished = false := by
  intro other early
  have leads : seen <+: stream := (prefix_append _ _).trans within
  by_contra finished
  have whole := (completed.finished_iff leads).mp (any_eq_true.mpr
    ⟨other, early, by simpa using finished⟩)
  have length := within.length_le
  rw [← whole, length_append, length_cons] at length
  omega

variable {streams : Nat → List (OutputChunk M)} (chat : req.kind = .chat)
  (tools : req.parseToolCalls = true) (completed : ∀ k < req.totalChoices, Completed (streams k))
include chat tools completed

/-- Everything that a stream with tools shows is well-formed. -/
theorem ToolsPrintable.framesPrint
    (printable : ∀ k < req.totalChoices, ToolsPrintable ctx req k (streams k)) :
    GenerationRun.FramesPrint ctx req streams := by
  intro k inside seen ahead c frames choice within rendered
  have complete := completed k inside
  have prints := printable k inside
  have member : c ∈ streams k := within.subset (by simp)
  have going := complete.early within
  have holds := rendered.holds_back chat tools complete going
  rw [toolFrames_prints_iff prints.header chat tools (complete.error c member)
    (complete.finish_iff c member).mp]
  cases final : c.finished with
  | false =>
    refine ⟨?_, fun _ => prints.pieces c member (.inl final), nofun⟩
    have next := prints.before ((Rendered.chunk rendered c ahead within).holds_back chat tools
      complete (forall_mem_append.mpr ⟨going, forall_mem_singleton.mpr final⟩))
    rw [flatMap_append] at next
    exact (prints.before holds).cancel next
  | true =>
    have whole : seen ++ c :: ahead = streams k :=
      (complete.finished_iff within).mp (by simp [final])
    have shape : streams k = seen ++ [c] := by
      refine ((complete.finished_iff (List.IsPrefix.trans ?_ within)).mp (by simp [final])).symm
      simp
    rw [whole]
    refine ⟨?_, ?_, fun _ => ⟨prints.calls, prints.reason c member final⟩⟩
    · have all : Valid ((frames ++ (framesFor ctx req (accumulated req k (streams k)) choice
          c).1).flatMap Frame.text) := by
        have content := prints.content
        rw [answerOf_content tools] at content
        rw [(rendered.addsUp chat tools complete shape).text]
        split <;> rename_i calls
        · rwa [if_pos calls] at content
        · rw [if_neg calls] at content
          apply shownContent_valid _ content
          rw [← holds.shows.text]
          exact prints.before holds
      rw [flatMap_append] at all
      exact (prints.before holds).cancel all
    · rintro (going | calls | more)
      · cases going
      · exact prints.pieces c member (.inr (.inl calls))
      · refine prints.pieces c member (.inr (.inr ?_))
        obtain ⟨chunks, leads, _, sent⟩ := holds.sent
        rw [accumulated_text, ← textOf, sent] at more
        rw [shape, dropLast_concat, ← shape]
        exact Nat.lt_of_le_of_lt (released_mono leads) more

/-- Chunks that are shown when the same chunks have been added for all of them. -/
theorem Rendered.together (ctx : ServerContext M) (inside : k < req.totalChoices)
    (within : chunks <+: streams k) (leads : seen <+: chunks)
    (going : ∀ c ∈ seen, c.finished = false) :
    ∃ frames choice, Rendered ctx req k (streams k) seen frames choice ∧
      choice.contentSent ≤ released req chunks ∧
      (seen ≠ [] → choice.contentSent = released req chunks) := by
  induction seen using List.reverseRecOn with
  | nil => exact ⟨_, _, .nil, Nat.zero_le _, absurd rfl⟩
  | append_singleton seen c ih =>
    rw [forall_mem_append, forall_mem_singleton] at going
    obtain ⟨frames, choice, rendered, less, _⟩ := ih ((prefix_append _ _).trans leads) going.1
    obtain ⟨ahead, rfl⟩ := leads
    rw [append_assoc] at within ⊢
    refine ⟨_, _, .chunk rendered c ahead within, ?_⟩
    have member : c ∈ streams k := within.subset (by simp)
    rw [framesFor_going chat tools ((completed k inside).error c member) going.2, heldFrames,
      accumulated_text, ← textOf, ← released]
    rw [append_assoc] at less
    split
    · exact ⟨Nat.le_refl _, fun _ => rfl⟩
    · rename_i done
      have same := Nat.le_antisymm less (Nat.le_of_not_lt done)
      split <;> exact ⟨less, fun _ => same⟩

omit chat tools completed in
theorem Rendered.text_valid (print : GenerationRun.FramesPrint ctx req streams)
    (inside : k < req.totalChoices)
    (rendered : Rendered ctx req k (streams k) seen frames choice) :
    Valid (frames.flatMap Frame.text) := by
  induction rendered with
  | nil => exact .nil
  | @chunk seen frames choice before c ahead within ih =>
    rw [flatMap_append]
    refine ih.append (Valid.flatMap fun frame member => ?_)
    exact Frame.text_valid (print k inside seen ahead c frames choice within before frame member)

omit chat tools in
theorem Rendered.own (inside : k < req.totalChoices)
    (rendered : Rendered ctx req k (streams k) seen frames choice) :
    framesOf k frames = frames := by
  apply framesOf_own
  induction rendered with
  | nil => exact forall_mem_nil _
  | @chunk seen frames choice before c ahead within ih =>
    refine forall_mem_append.mpr ⟨ih, ?_⟩
    intro frame member
    rw [framesFor_index ((completed k inside).error c (within.subset (by simp))) frame member,
      accumulated_index inside]

section

variable (inside : k < req.totalChoices) {front : List (OutputChunk M)} {last : OutputChunk M}
  (shape : streams k = front ++ [last]) (ahead : Ahead (streams k) chunks)
include inside shape ahead

/-- All chunks but the last one are shown together, with the last one or before it comes. -/
theorem Rendered.closing (ctx : ServerContext M) (leads : front <+: chunks) :
    ∃ before old, Rendered ctx req k (streams k) front before old ∧
      old.contentSent = released req chunks ∧
      Rendered ctx req k (streams k) (streams k)
        (before ++ (framesFor ctx req (accumulated req k (streams k)) old last).1)
        (framesFor ctx req (accumulated req k (streams k)) old last).2 := by
  obtain ⟨early, final, _⟩ := (completed k inside).parts shape
  obtain ⟨before, old, rendered, less, sent⟩ := Rendered.together chat tools completed ctx inside
    ahead.1 leads early
  have whole := Rendered.chunk rendered last [] (by rw [shape])
  rw [← shape] at whole
  refine ⟨before, old, rendered, ?_, whole⟩
  by_cases none : front = []
  · rcases ahead.2 with rfl | ⟨c, member, going⟩
    · exact Nat.le_antisymm less (Nat.le_trans (released_le req []) (Nat.zero_le _))
    · have same := ahead.1.subset member
      rw [shape, none, nil_append, mem_singleton] at same
      rw [same, final] at going
      cases going
  · exact sent none

omit shape in
theorem Rendered.released (print : GenerationRun.FramesPrint ctx req streams) :
    Cut (textOf chunks) (released req chunks) := by
  have complete := completed k inside
  rcases ahead.2 with rfl | ⟨c, member, going⟩
  · simp [Cut, textOf, Valid.nil]
  obtain ⟨seen, more, rfl⟩ := append_of_mem member
  have early : ∀ other ∈ seen ++ [c], other.finished = false :=
    forall_mem_append.mpr ⟨complete.early ahead.1, forall_mem_singleton.mpr going⟩
  obtain ⟨frames, choice, rendered, _, sent⟩ := Rendered.together chat tools completed ctx inside
    ahead.1 (show seen ++ [c] <+: seen ++ c :: more by simp) early
  refine ((rendered.holds_back chat tools complete early).valid_iff ahead.1 (sent (by simp))).mp ?_
  exact rendered.text_valid print inside

variable (agrees : ∀ frames choice, Rendered ctx req k (streams k) (streams k) frames choice →
  (answerOf ctx req k (streams k)).ToolsStreamed frames)
include agrees

theorem ContentKept.of_agrees (leads : front <+: chunks) :
    ContentKept ctx req (textOf (streams k)) (released req chunks) := by
  obtain ⟨before, old, rendered, sent, whole⟩ := Rendered.closing chat tools completed inside
    shape ahead ctx leads
  rw [← sent]
  exact (rendered.streamed_iff chat tools (completed k inside) shape inside
    (whole.own completed inside)).mp (agrees _ _ whole)

omit shape ahead in
/-- A choice whose frames can all be dumped and agree with the answer. -/
theorem ToolsAgree.of_agrees (print : GenerationRun.FramesPrint ctx req streams) :
    ToolsAgree ctx req k (streams k) := by
  have complete := completed k inside
  obtain ⟨front, last, shape, _⟩ := complete.shape
  obtain ⟨early, final, _⟩ := complete.parts shape
  have rest : (streams k).dropLast = front := by rw [shape, dropLast_concat]
  have member : last ∈ streams k := by simp [shape]
  have only : ∀ c ∈ streams k, c.finished = true → c = last := by
    intro c here finished
    rw [shape] at here
    rcases mem_append.mp here with before | same
    · rw [early c before] at finished
      cases finished
    · exact mem_singleton.mp same
  have start : Ahead (streams k) front := by
    refine ⟨by simp [shape], ?_⟩
    cases front with
    | nil => exact .inl rfl
    | cons first front => exact .inr ⟨first, mem_cons_self, early first mem_cons_self⟩
  obtain ⟨before, old, rendered, sent, whole⟩ := Rendered.closing chat tools completed inside
    shape start ctx prefix_rfl
  have printed := print k inside front [] last before old (by rw [shape]) rendered
  rw [← shape] at printed
  have header : req.HeaderPrints := by
    rw [framesFor_closing chat tools (complete.error last member) final] at printed
    exact closingFrames_header fun frame inner => printed frame (mem_append_right _ inner)
  have shown := fun c (here : c ∈ streams k) (r : ChoiceResult M) (choice : Choice) =>
    @toolFrames_prints_iff M ctx req r c choice header chat tools (complete.error c here)
      (complete.finish_iff c here).mp
  obtain ⟨_, pieces, closing⟩ := (shown last member _ _).mp printed
  refine ⟨⟨header, ?_, ?_, (closing final).1, ?_, ?_⟩, fun chunks leads ahead =>
    .of_agrees chat tools completed inside shape ahead agrees (rest ▸ leads)⟩
  · exact fun chunks ahead => Rendered.released chat tools completed inside ahead print
  · have text := whole.text_valid print inside
    have streamed := (agrees _ _ whole).content
    rw [answerOf_index tools inside, whole.own completed inside] at streamed
    have answer := @answerOf_content M ctx req k (streams k) tools
    by_cases none : (parsedOf ctx req (textOf (streams k))).toolCalls = []
    · rw [(rendered.addsUp chat tools complete shape).text, if_pos none] at text
      rw [answer, if_pos none]
      exact text
    · obtain ⟨place, back, content, _⟩ := ToolCalls.parseToolCalls_content none
      rw [if_neg none, parsedOf, content] at answer
      rw [answer, ToolCalls.trim_trim, ← answer] at streamed
      rw [← streamed]
      exact ToolCalls.trim_valid text
  · intro c here finished
    rw [only c here finished]
    exact (closing final).2
  · intro c here how
    by_cases finished : c.finished = true
    · rw [only c here finished]
      rw [finished, rest, ← sent] at how
      rw [accumulated_text] at pieces
      exact pieces (.inr (how.resolve_left nofun))
    · obtain ⟨seen, more, split⟩ := append_of_mem here
      have within : seen ++ c :: more <+: streams k := by rw [split]
      obtain ⟨_, _, rendered, _⟩ := Rendered.together chat tools completed ctx inside prefix_rfl
        ((prefix_append _ _).trans within) (complete.early within)
      exact ((shown c here _ _).mp (print k inside seen more c _ _ within rendered)).2.1
        (.inl (by simpa using finished))

end

/-- The other direction, for the frames of a choice among others. -/
theorem ToolsAgree.streamed (inside : k < req.totalChoices)
    (agree : ToolsAgree ctx req k (streams k)) {sent : List (Frame M)}
    (rendered : Rendered ctx req k (streams k) (streams k) (framesOf k sent) choice) :
    (answerOf ctx req k (streams k)).ToolsStreamed sent := by
  have complete := completed k inside
  obtain ⟨front, last, shape, _⟩ := complete.shape
  obtain ⟨before, old, earlier, frames⟩ := rendered.final rfl shape
  rw [earlier.streamed_iff chat tools complete shape inside frames]
  obtain ⟨chunks, leads, ahead, same⟩ :=
    (earlier.holds_back chat tools complete (complete.parts shape).1).sent
  rw [same]
  apply agree.kept chunks _ ahead
  rw [shape, dropLast_concat]
  exact leads

end Printing

namespace GenerationRun

/-- `sse_for` never throws for a chat with tools, and its frames for a choice agree with the
answer, if and only if the chunks satisfy the condition. Then every stream goes on, whatever the
interleaving of arrivals and turns, comes to its end and agrees with the answer. -/
theorem serve_tools_iff (ctx : ServerContext M) (req : GenerationRequest)
    (streams : Nat → List (OutputChunk M)) (chat : req.kind = .chat)
    (tools : req.parseToolCalls = true) (streaming : req.stream = true)
    (completed : ∀ k < req.totalChoices, Completed (streams k)) :
    ((FramesPrint ctx req streams ∧ ∀ k < req.totalChoices, ∀ frames choice,
        Rendered ctx req k (streams k) (streams k) frames choice →
          (answerOf ctx req k (streams k)).ToolsStreamed frames) ↔
      ∀ k < req.totalChoices, ToolsAgree ctx req k (streams k)) ∧
    ((∀ k < req.totalChoices, ToolsAgree ctx req k (streams k)) →
      ∀ events : List (Event M), Event.abort ∉ events →
        (∀ k < req.totalChoices, arrivals events k <+: streams k) →
        (∀ message, (serve ctx req events).phase ≠ .failed message) ∧
        ((serve ctx req events).phase = .closed → ∀ k < req.totalChoices,
          (answerOf ctx req k (streams k)).ToolsStreamed
            (serve ctx req events).sent) ∧
        ((∀ k < req.totalChoices, arrivals events k = streams k) →
          ∃ count, (serve ctx req (events ++ List.replicate count .turn)).phase = .closed)) := by
  have print : (∀ k < req.totalChoices, ToolsAgree ctx req k (streams k)) →
      FramesPrint ctx req streams := fun agree =>
    ToolsPrintable.framesPrint chat tools completed fun k inside => (agree k inside).prints
  refine ⟨⟨?_, ?_⟩, ?_⟩
  · rintro ⟨print, agrees⟩ k inside
    exact .of_agrees chat tools completed inside (agrees k inside) print
  · intro agree
    refine ⟨print agree, ?_⟩
    intro k inside frames choice rendered
    rw [← rendered.own completed inside] at rendered
    exact (agree k inside).streamed chat tools completed inside rendered
  · intro agree events running within
    have first : 0 < req.totalChoices := Nat.mul_pos req.prompts_pos req.choices_pos
    have dumps : Dumps ctx req streams :=
      ⟨completed, streaming, print agree, (agree 0 first).prints.header⟩
    refine ⟨serve_intact dumps events running within, ?_, serve_ends dumps events running⟩
    intro closed k inside
    obtain ⟨choice, rendered⟩ := (serve_served completed running within closed).rendered completed
      within streaming inside
    exact (agree k inside).streamed chat tools completed inside rendered

/-- A streamed chat with tools. -/
def toolRequest (format : ToolFormat) : GenerationRequest :=
  { chatRequest true with parseToolCalls := true, toolFormat := format }

/-- `<tool_call>{"name":"f"}</tool_call>` -/
def callText : Bytes :=
  ToolCalls.openTag ++ [0x7B, 0x22, 0x6E, 0x61, 0x6D, 0x65, 0x22, 0x3A, 0x22, 0x66, 0x22, 0x7D] ++
    ToolCalls.closeTag

/-- The text before a call and the call with the text behind it. -/
def callStream (before behind : Bytes) : List (OutputChunk Model.spelling) :=
  [{ text := before }, { text := callText ++ behind, finished := true, finishReason := .stop }]

/-- A chat with tools whose only choice is such a stream, and the turns that it is given. -/
def callRun (before behind : Bytes) (turns : Nat) : GenerationRun Model.spelling :=
  serve spellingContext (toolRequest .hermes)
    (arriveAll (fun _ => callStream before behind) 1 ++ List.replicate turns .turn)

def callAnswer (before behind : Bytes) : ChatChoice Model.spelling :=
  answerOf spellingContext (toolRequest .hermes) 0 (callStream before behind)

theorem serve_tools_agree :
    ∃ turns, (callRun [0x48, 0x69, 0x20] [0x21] turns).phase = .closed ∧
      (callAnswer [0x48, 0x69, 0x20] [0x21]).ToolsStreamed
        (callRun [0x48, 0x69, 0x20] [0x21] turns).sent := by
  have agree : ∀ k < (toolRequest .hermes).totalChoices, ToolsAgree spellingContext
      (toolRequest .hermes) k (callStream [0x48, 0x69, 0x20] [0x21]) := by
    intro k inside
    have parts : ∀ chunks, chunks <+: callStream [0x48, 0x69, 0x20] [0x21] →
        chunks = [] ∨ chunks = [{ text := [0x48, 0x69, 0x20] }] ∨
          chunks = callStream [0x48, 0x69, 0x20] [0x21] := by
      intro chunks leads
      rcases prefix_cons_iff.mp leads with none | ⟨rest, rfl, more⟩
      · exact .inl none
      rcases prefix_cons_iff.mp more with rfl | ⟨others, rfl, last⟩
      · exact .inr (.inl rfl)
      · rw [prefix_nil.mp last]
        exact .inr (.inr rfl)
    rw [Nat.lt_one_iff.mp inside]
    refine ⟨⟨by decide, ?_, by decide +kernel, by decide +kernel, by decide, ?_⟩, ?_⟩
    · intro chunks ahead
      rw [Cut]
      rcases parts chunks ahead.1 with rfl | rfl | rfl <;> decide +kernel
    · intro _ _ _ asked
      cases asked
    · intro chunks _ _
      exact .inr (.inr (.inl (by decide)))
  have tools := (serve_tools_iff spellingContext (toolRequest .hermes)
    (fun _ => callStream [0x48, 0x69, 0x20] [0x21]) rfl rfl rfl (fun _ _ => by decide)).2 agree
  obtain ⟨count, closed, running, within⟩ := arriveAll_ends fun events running within =>
    (tools events running within).2.2
  exact ⟨count, closed, (tools _ running within).2.1 closed 0 (by decide)⟩

def RunPhase.isClosed : RunPhase M → Bool
  | .closed => true
  | .idle | .draining .. | .blocking | .failed _ => false

/-- A blank before the text keeps what follows a call from the stream: ` Hi` is sent, the
content of the answer is `Hi!`. -/
theorem serve_tools_lose :
    RunPhase.isClosed (callRun [0x20, 0x48, 0x69] [0x21] 8).phase = true ∧
      ¬ (callAnswer [0x20, 0x48, 0x69] [0x21]).ToolsStreamed
        (callRun [0x20, 0x48, 0x69] [0x21] 8).sent := by
  refine ⟨by decide +kernel, ?_⟩
  intro streamed
  exact absurd streamed.content (by decide +kernel)

end GenerationRun

end Iian
