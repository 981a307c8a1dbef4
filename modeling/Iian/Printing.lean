import Iian.StreamedText

/- Which strings the frames of a stream without tools hold. -/
namespace Iian

open List
open Lib.Utf8 (Valid)

variable {M : Model}

variable {ctx : ServerContext M} {req : GenerationRequest} {k : Nat}

theorem Frame.prints_iff {frame : Frame M} :
    frame.prints = true ↔ ∀ text ∈ frame.strings, Valid text := by
  rw [Frame.prints, all_eq_true]
  exact forall₂_congr fun text _ => Lib.Utf8.checkFrom_iff

/-- The tokens that are shown for a sample are texts. -/
def SampledPrints (topN : Int) (sampled : SampledToken M.Logit) : Prop :=
  Valid (M.tokenToPiece sampled.token true) ∧
    ∀ entry ∈ sampled.top.take topN.toNat, Valid (M.tokenToPiece entry.1 true)

instance (topN : Int) (sampled : SampledToken M.Logit) : Decidable (SampledPrints topN sampled) :=
  inferInstanceAs (Decidable (_ ∧ _))

theorem tokenLogprob_strings (topN : Int) (sampled : SampledToken M.Logit) :
    (tokenLogprob ctx topN sampled).strings = M.tokenToPiece sampled.token true ::
      (sampled.top.take topN.toNat).map (fun entry => M.tokenToPiece entry.1 true) := by
  simp [TokenLogprob.strings, tokenLogprob, topLogprob, Function.comp_def]

variable {logprobs : List (SampledToken M.Logit)} {reason text : Bytes} {finish : FinishReason}
    {r : ChoiceResult M} {choice : Choice} {c : OutputChunk M} {seen : List (OutputChunk M)}
    {index : Nat}

theorem chatLogprobsJson_strings {topN : Int} :
    (∀ text ∈ (chatLogprobsJson ctx logprobs topN).flatMap TokenLogprob.strings, Valid text) ↔
      ∀ sampled ∈ logprobs, SampledPrints topN sampled := by
  rw [chatLogprobsJson, flatMap_map]
  simp only [mem_flatMap, tokenLogprob_strings, mem_cons, mem_map, SampledPrints]
  constructor
  · intro all sampled member
    refine ⟨all _ ⟨sampled, member, .inl rfl⟩, ?_⟩
    intro entry shown
    exact all _ ⟨sampled, member, .inr ⟨entry, shown, rfl⟩⟩
  · rintro all text ⟨sampled, member, rfl | ⟨entry, shown, rfl⟩⟩
    · exact (all sampled member).1
    · exact (all sampled member).2 entry shown

/-- The keys of the object with the most likely tokens. -/
theorem mem_topKeys {entries : List (Token × M.Logit)} {items : List (Bytes × M.Logit)} :
    text ∈ (entries.foldl (fun top entry =>
        Lib.Json.setKey (M.tokenToPiece entry.1 true) (ctx.cleanLogprob (some entry.2)) top)
        items).map Prod.fst ↔
      text ∈ items.map Prod.fst ∨ ∃ entry ∈ entries, text = M.tokenToPiece entry.1 true := by
  induction entries generalizing items with
  | nil => simp
  | cons entry entries ih =>
    rw [foldl_cons, ih, Lib.Json.mem_setKey]
    simp only [mem_cons, exists_eq_or_imp]
    tauto

theorem completionLogprobsJson_strings {topN : Int} {base offset : Nat} :
    (∀ text ∈ (completionLogprobsJson ctx logprobs topN base offset).1.strings, Valid text) ↔
      ∀ sampled ∈ logprobs, SampledPrints topN sampled := by
  induction logprobs using List.reverseRecOn with
  | nil => simp [completionLogprobsJson, CompletionLogprobs.strings]
  | append_singleton logprobs sampled ih =>
    rw [completionLogprobsJson, foldl_concat, ← completionLogprobsJson]
    have one : (∀ text ∈ M.tokenToPiece sampled.token true ::
        ((sampled.top.take topN.toNat).foldl (fun top entry =>
          Lib.Json.setKey (M.tokenToPiece entry.1 true) (ctx.cleanLogprob (some entry.2)) top)
          [(M.tokenToPiece sampled.token true, ctx.cleanLogprob sampled.logprob)]).map Prod.fst,
        Valid text) ↔ SampledPrints topN sampled := by
      simp only [mem_cons, mem_topKeys, map_cons, map_nil, not_mem_nil, or_false, SampledPrints]
      constructor
      · intro all
        exact ⟨all _ (.inl rfl), fun entry shown => all _ (.inr (.inr ⟨entry, shown, rfl⟩))⟩
      rintro ⟨own, tops⟩ text (rfl | rfl | ⟨entry, shown, rfl⟩)
      · exact own
      · exact own
      · exact tops entry shown
    rw [forall_mem_append, ← ih, forall_mem_singleton, ← one]
    simp only [CompletionLogprobs.strings, CompletionLogprobs.push, mem_append,
      flatMap_append, flatMap_cons, flatMap_nil, append_nil, mem_cons,
      not_mem_nil, or_false]
    constructor
    · intro all
      refine ⟨fun text member => all text ?_, fun text member => all text ?_⟩ <;> tauto
    rintro ⟨old, new⟩ text member
    rcases member with (before | here) | (tops | keys)
    · exact old text (.inl before)
    · exact new text (.inl here)
    · exact old text (.inr tops)
    · exact new text (.inr keys)

theorem stopReasonJson_strings :
    (∀ text ∈ (stopReasonJson reason).strings, Valid text) ↔ Valid reason := by
  unfold stopReasonJson
  split
  · rename_i none
    rw [List.isEmpty_iff.mp none]
    exact iff_of_true nofun .nil
  · split
    · rename_i digits
      refine iff_of_true nofun (Lib.Utf8.valid_ascii ?_)
      rw [Bool.and_eq_true, all_eq_true] at digits
      intro byte member
      have digit := digits.1 byte member
      simp only [Lib.Json.isDigit, Bool.and_eq_true, decide_eq_true_eq] at digit
      omega
    · simp [StopReason.strings]

theorem chunkStop_strings :
    (∀ text ∈ (chunkStop finish reason).elim [] StopReason.strings, Valid text) ↔
      (finish ≠ .none → Valid reason) := by
  unfold chunkStop
  split
  · rename_i none
    exact iff_of_true nofun fun some => absurd none some
  · rename_i some
    exact stopReasonJson_strings.trans ⟨fun valid _ => valid, fun valid => valid some⟩

/-- The id and the model of a request are texts. -/
def GenerationRequest.HeaderPrints (req : GenerationRequest) : Prop :=
  ∀ text ∈ req.header.strings, Valid text

instance (req : GenerationRequest) : Decidable req.HeaderPrints :=
  inferInstanceAs (Decidable (∀ text ∈ req.header.strings, Valid text))

theorem chatChunkJson_prints {delta : Delta} {logprobs : Option (List (TokenLogprob M))} :
    (chatChunkJson req index delta logprobs finish reason).prints = true ↔
      req.HeaderPrints ∧ (∀ text ∈ delta.strings, Valid text) ∧
        (∀ text ∈ (logprobs.getD []).flatMap TokenLogprob.strings, Valid text) ∧
        (finish ≠ .none → Valid reason) := by
  rw [Frame.prints_iff, ← chunkStop_strings]
  simp only [chatChunkJson, Frame.strings, ChatChunk.strings, forall_mem_append,
    GenerationRequest.HeaderPrints, and_assoc]

theorem completionChunkJson_prints {logprobs : Option (CompletionLogprobs M)} :
    (completionChunkJson req index text logprobs finish reason).prints = true ↔
      req.HeaderPrints ∧ Valid text ∧
        (∀ text ∈ logprobs.elim [] CompletionLogprobs.strings, Valid text) ∧
        (finish ≠ .none → Valid reason) := by
  rw [Frame.prints_iff, ← chunkStop_strings]
  simp only [completionChunkJson, Frame.strings, CompletionChunk.strings, forall_mem_append,
    forall_mem_cons, GenerationRequest.HeaderPrints]

/-- What is shown of a chunk is well-formed, `text` being its text in the stream. -/
structure ChunkPrints (req : GenerationRequest) (text : Bytes) (c : OutputChunk M) : Prop where
  text : Valid text
  reason : c.finished = true → Valid c.stopReason
  pieces : req.wantLogprobs = true → ∀ sampled ∈ c.logprobs, SampledPrints req.topLogprobs sampled

theorem valid_nil : ∀ text ∈ ([] : List Bytes), Valid text := forall_mem_nil _

theorem chatLogprobs_strings {c : OutputChunk M} :
    (∀ text ∈ ((chatLogprobs ctx req c).getD []).flatMap TokenLogprob.strings, Valid text) ↔
      (req.wantLogprobs = true → ∀ sampled ∈ c.logprobs,
        SampledPrints req.topLogprobs sampled) := by
  rw [chatLogprobs_shown, shownChat]
  split
  · rename_i asked
    exact chatLogprobsJson_strings.trans ⟨fun all _ => all, fun all => all asked⟩
  · rename_i quiet
    exact iff_of_true valid_nil fun asked => absurd asked quiet

section

variable (plain : req.parseToolCalls = false) (ends : c.finished = true ↔ c.finishReason ≠ .none)

include plain ends

theorem chatFrames_prints (header : req.HeaderPrints) (chunk : ChunkPrints req c.text c) :
    ∀ frame ∈ (chatFrames ctx req r choice c).1, frame.prints = true := by
  have pieces := (@chatLogprobs_strings M ctx req c).mpr chunk.pieces
  intro frame member
  rw [chatFrames, plain] at member
  rcases mem_append.mp member with role | body
  · rw [mem_ite_nil role]
    exact chatChunkJson_prints.mpr ⟨header, valid_nil, valid_nil, absurd rfl⟩
  rcases mem_append.mp body with content | final
  · rw [mem_ite_nil content]
    refine chatChunkJson_prints.mpr ⟨header, ?_, pieces, absurd rfl⟩
    simpa [Delta.strings] using chunk.text
  · rw [mem_ite_one final]
    exact chatChunkJson_prints.mpr
      ⟨header, valid_nil, valid_nil, fun some => chunk.reason (ends.mpr some)⟩

/-- The frames of a chunk of a chat show all of it. -/
theorem chatFrames_printed (all : ∀ frame ∈
    (chatFrames ctx req r choice c).1, frame.prints = true) :
    ChunkPrints req c.text c ∧ (c.finished = true → req.HeaderPrints) := by
  have body : ∀ frame ∈ plainFrames req r.index (chatLogprobs ctx req c) c,
      frame.prints = true := by
    intro frame member
    apply all frame
    rw [chatFrames, plain]
    exact mem_append_right _ member
  have final : c.finished = true →
      req.HeaderPrints ∧ (c.finishReason ≠ .none → Valid c.stopReason) := by
    intro finished
    have frame := body (chatChunkJson req r.index .empty none c.finishReason c.stopReason) (by
      rw [plainFrames, if_pos finished]
      exact mem_append_right _ mem_cons_self)
    rw [chatChunkJson_prints] at frame
    exact ⟨frame.1, frame.2.2.2⟩
  have content : Valid c.text ∧
      ∀ text ∈ ((chatLogprobs ctx req c).getD []).flatMap TokenLogprob.strings, Valid text := by
    by_cases skip : (c.text.isEmpty && (chatLogprobs ctx req c).isNone) = true
    · rw [Bool.and_eq_true, List.isEmpty_iff, Option.isNone_iff_eq_none] at skip
      rw [skip.1, skip.2]
      exact ⟨.nil, valid_nil⟩
    · have frame := body (chatChunkJson req r.index (.content c.text) (chatLogprobs ctx req c)
        .none []) (by
          rw [plainFrames, if_neg skip]
          exact mem_append_left _ mem_cons_self)
      rw [chatChunkJson_prints] at frame
      exact ⟨frame.2.1 _ mem_cons_self, frame.2.2.1⟩
  exact ⟨⟨content.1, fun finished => (final finished).2 (ends.mp finished),
    chatLogprobs_strings.mp content.2⟩, fun finished => (final finished).1⟩

end

theorem completionLogprobs_strings {choice : Choice} {c : OutputChunk M} :
    (∀ text ∈ (if req.wantLogprobs && !c.logprobs.isEmpty then
        some (completionArrays ctx req k choice c).1 else none).elim []
          CompletionLogprobs.strings, Valid text) ↔
      (req.wantLogprobs = true → ∀ sampled ∈ c.logprobs,
        SampledPrints req.topLogprobs sampled) := by
  cases asked : req.wantLogprobs with
  | false => exact iff_of_true nofun nofun
  | true =>
    cases some : c.logprobs with
    | nil => exact iff_of_true nofun fun _ => nofun
    | cons sampled logprobs =>
      rw [← some]
      refine Iff.trans ?_ ⟨fun all _ => all, fun all => all rfl⟩
      simp only [some, isEmpty_cons, Bool.not_false, Bool.and_true, if_true,
        Option.elim_some, completionArrays]
      exact completionLogprobsJson_strings

/-- The one frame of a chunk of a completion shows all of it. -/
theorem completionFrames_prints_iff (prompt : r.promptIndex = k / req.n)
    (ends : c.finished = true ↔ c.finishReason ≠ .none) :
    (∀ frame ∈ (completionFrames ctx req r choice c).1, frame.prints = true) ↔
      ChunkPrints req (completionText req k choice c) c ∧
        ((completionFrames ctx req r choice c).1 ≠ [] → req.HeaderPrints) := by
  have pieces := @completionLogprobs_strings M ctx req k choice c
  unfold completionFrames
  dsimp only
  rw [prompt, ← completionText, ← completionArrays]
  generalize (if req.wantLogprobs && !c.logprobs.isEmpty then
    some (completionArrays ctx req k choice c).1 else none) = logprobs at pieces ⊢
  split
  · rename_i skip
    simp only [Bool.and_eq_true, List.isEmpty_iff, Option.isNone_iff_eq_none,
      Bool.not_eq_true'] at skip
    obtain ⟨⟨noText, noEntries⟩, going⟩ := skip
    rw [noEntries] at pieces
    refine iff_of_true (forall_mem_nil _) ⟨⟨?_, ?_, pieces.mp valid_nil⟩, fun some => absurd rfl some⟩
    · rw [noText]
      exact .nil
    · intro finished
      rw [going] at finished
      cases finished
  · rw [forall_mem_singleton, completionChunkJson_prints, pieces]
    constructor
    · rintro ⟨header, text, pieces, reason⟩
      exact ⟨⟨text, fun finished => reason (ends.mp finished), pieces⟩, fun _ => header⟩
    · rintro ⟨⟨text, reason, pieces⟩, header⟩
      exact ⟨header (by simp), text, pieces, fun some => reason (ends.mpr some)⟩

/-- The text of the `i`-th chunk as the stream shows it: a completion repeats the prompt in
front of the first one. -/
def shownText (req : GenerationRequest) (k i : Nat) (c : OutputChunk M) : Bytes :=
  (if req.kind = .completion ∧ i = 0 then echoed req (k / req.n) else []) ++ c.text

/-- Everything a stream without tools shows is well-formed UTF-8. -/
structure Printable (req : GenerationRequest) (streams : Nat → List (OutputChunk M)) : Prop where
  header : req.HeaderPrints
  chunks : ∀ k < req.totalChoices, ∀ i c, (streams k)[i]? = some c →
    ChunkPrints req (shownText req k i c) c

theorem completionText_shown (completion : req.kind = .completion)
    (echo : choice.echoSent = (req.echo && !seen.isEmpty)) (c : OutputChunk M) :
    completionText req k choice c = shownText req k seen.length c := by
  rw [completionText_eq echo, shownText]
  cases seen <;> simp [completion]

theorem Printable.frames {streams : Nat → List (OutputChunk M)}
    (plain : req.parseToolCalls = false)
    (completed : ∀ k < req.totalChoices, Completed (streams k))
    (printable : Printable req streams) : GenerationRun.FramesPrint ctx req streams := by
  intro k inside seen ahead c frames choice within rendered
  have member : c ∈ streams k := within.subset (by simp)
  have ends := (completed k inside).finish_iff c member
  have place : (streams k)[seen.length]? = some c := by
    obtain ⟨rest, shape⟩ := within
    rw [← shape]
    simp
  have chunk := printable.chunks k inside seen.length c place
  rw [framesFor_eq ((completed k inside).error c member)]
  cases kind : req.kind with
  | chat =>
    apply chatFrames_prints plain ends printable.header
    simpa [shownText, kind] using chunk
  | completion =>
    rw [← completionText_shown kind (rendered.shows_completion kind (completed k inside)).echo]
      at chunk
    exact (completionFrames_prints_iff (accumulated_promptIndex ..) ends).mpr
      ⟨chunk, fun _ => printable.header⟩

/-- Frames that have been dumped show well-formed texts. -/
theorem Rendered.printed (plain : req.parseToolCalls = false) {stream : List (OutputChunk M)}
    (completed : Completed stream) {frames : List (Frame M)}
    (rendered : Rendered ctx req k stream seen frames choice)
    (all : ∀ frame ∈ frames, frame.prints = true) :
    (∀ i c, seen[i]? = some c → ChunkPrints req (shownText req k i c) c) ∧
      ∀ c ∈ seen, c.finished = true → req.HeaderPrints := by
  induction rendered with
  | nil => exact ⟨by simp, nofun⟩
  | @chunk seen frames choice before c ahead within ih =>
    have member : c ∈ stream := within.subset (by simp)
    have ends := completed.finish_iff c member
    obtain ⟨old, headers⟩ := ih fun frame member => all frame (mem_append_left _ member)
    have new := fun frame member => all frame (mem_append_right _ member)
    have one : ChunkPrints req (shownText req k seen.length c) c ∧
        (c.finished = true → req.HeaderPrints) := by
      rw [framesFor_eq (completed.error c member)] at new
      cases kind : req.kind with
      | chat =>
        rw [kind] at new
        simpa [shownText, kind] using chatFrames_printed plain ends new
      | completion =>
        rw [kind] at new
        rw [← completionText_shown kind (before.shows_completion kind completed).echo]
        obtain ⟨chunk, header⟩ := (completionFrames_prints_iff (accumulated_promptIndex ..)
          ends).mp new
        refine ⟨chunk, fun finished => header ?_⟩
        intro none
        have finish := (@completionFrames_parts M ctx req k _
          (accumulated_promptIndex req k (seen ++ c :: ahead)) choice c ends).2.2
        rw [none] at finish
        simp [chunkFinish, finishOf, ends.mp finished] at finish
    refine ⟨?_, ?_⟩
    · intro i other place
      by_cases early : i < seen.length
      · rw [getElem?_append_left early] at place
        exact old i other place
      rw [getElem?_append_right (Nat.le_of_not_lt early), getElem?_singleton] at place
      split at place
      · rename_i last
        cases place
        rw [show i = seen.length by omega]
        exact one.1
      · cases place
    · intro other member finished
      rcases mem_append.mp member with early | last
      · exact headers other early finished
      · rw [mem_singleton.mp last] at finished
        exact one.2 finished

end Iian
