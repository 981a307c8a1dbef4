import Iian.Delivery
import Iian.StreamAgreement
import Iian.ToolCallText

/- When the answer to a request whose choices have ended with STOP or LENGTH can be sent. -/
namespace Iian

open List
open Lib.Utf8 (Valid Cut)

variable {M : Model}

variable {gen : Gen M} {last : Request M}

section Reasons

/-- A stop reason is empty, the id of a token or a stop string. -/
def Gen.ReasonKnown (gen : Gen M) : Prop :=
  gen.stopReason = [] ∨ (∃ token, gen.stopReason = Gen.tokenText token) ∨
    gen.stopReason ∈ gen.params.stop

namespace Gen

theorem tokenText_ascii (token : Token) : ∀ byte ∈ tokenText token, byte.toNat < 0x80 := by
  have digits : ∀ count : Nat, ∀ char ∈ (Nat.repr count).toList, char.toNat < 0x80 := by
    intro count char member
    rw [Nat.repr, String.toList_ofList] at member
    have digit := Nat.isDigit_of_mem_toDigits (by decide) (by decide) member
    simp only [Char.isDigit, Bool.and_eq_true, decide_eq_true_eq] at digit
    have high : char.val ≤ '9'.val := digit.2
    have bound : char.val.toNat ≤ 57 := high
    exact Nat.lt_of_le_of_lt bound (by decide)
  intro byte member
  obtain ⟨char, inside, rfl⟩ := mem_map.mp member
  have ascii : char.toNat < 0x80 := by
    cases token with
    | ofNat count => exact digits count char inside
    | negSucc count =>
      change char ∈ ("-" ++ Nat.repr (count + 1)).toList at inside
      rw [String.toList_append] at inside
      rcases mem_append.mp inside with sign | digit
      · have minus : "-".toList = ['-'] := by decide
        rw [minus] at sign
        rw [mem_singleton.mp sign]
        decide
      · exact digits _ char digit
  rw [UInt8.toNat_ofNat_of_lt' (Nat.lt_trans ascii (by decide))]
  exact ascii

theorem ReasonKnown.valid (known : gen.ReasonKnown) (stops : ∀ stop ∈ gen.params.stop, Valid stop) :
    Valid gen.stopReason := by
  rcases known with none | ⟨token, id⟩ | stop
  · rw [none]
    exact .nil
  · rw [id]
    exact Lib.Utf8.valid_ascii (tokenText_ascii token)
  · exact stops _ stop

theorem ReasonKnown.checkStrings (known : gen.ReasonKnown) : gen.checkStrings.1.ReasonKnown := by
  unfold Gen.checkStrings
  split
  · split
    · rename_i bestEnd bestStart best found
      have ends := bestStop_endsFirst gen.text gen.stopCheckOffset gen.params.stop
      rw [found] at ends
      exact .inr (.inr ends.1.1)
    · exact known
  · exact known

theorem ReasonKnown.pushToken (known : gen.ReasonKnown) (maxModelLen : Nat) (token : Token) :
    (gen.pushToken maxModelLen token).1.ReasonKnown := by
  rw [pushToken_eq]
  split
  · exact known
  split
  · exact .inr (.inl ⟨token, rfl⟩)
  have strings := ReasonKnown.checkStrings (show (gen.append token).ReasonKnown from known)
  split <;> rename_i shape <;> rw [shape] at strings <;> exact strings

theorem ReasonKnown.step {next : Gen M} (known : gen.ReasonKnown) {maxModelLen : Nat}
    {row : List M.Logit} {sampled : SampledToken M.Logit} {stop : Option FinishReason}
    (stepped : gen.step maxModelLen row = .ok (sampled, next, stop)) : next.ReasonKnown := by
  obtain ⟨middle, sampling, shape⟩ := step_pushes stepped
  have same : middle.ReasonKnown := by
    rw [(sampleToken_fields sampling).1]
    exact known
  have pushed := same.pushToken maxModelLen sampled.token
  rw [shape] at pushed
  exact pushed

end Gen

namespace Service

variable {service : Service M}

theorem Ended.reason (start : ∀ r, service.fresh r → r.ReasonKnown) (ended : service.Ended last) :
    last.ReasonKnown :=
  ended.keeps start (fun stepped known => known.step stepped) (fun known => known)

end Service

end Reasons

section Texts

namespace Request

/-- The final text of a request that has stopped is well-formed when its tokens spell a
well-formed text: a stop string is cut off, or kept, as a whole. -/
theorem Closing.text_valid {r next : Request M} {why : FinishReason}
    (closing : Closing r next why) (stops : ∀ stop ∈ next.params.stop, Valid stop)
    (valid : Valid (M.detokenized next.params next.outputs)) : Valid next.flush.text := by
  have goes : ∀ gen : Gen M, gen.Going → Valid (M.detokenized gen.params gen.outputs) →
      Valid (gen.text ++ gen.pending) := by
    intro gen going valid
    rw [going.detokenized]
    exact valid
  rcases closing.how with ⟨same, kind⟩ | ⟨gen, token, going, params, _, outputs, closes⟩
  · change Valid (next.text ++ next.pending)
    rw [same] at valid ⊢
    exact goes _ closing.streams.going valid
  · have whole : (gen.append token).text ++ (gen.append token).pending =
        M.detokenized next.params next.outputs := by
      rw [outputs, ← params.trans closing.params.symm, ← going.outputs_append,
        ← (M.spell_detokenized _ _).1, ← going.spelled_append]
    change Valid (next.text ++ next.pending)
    cases closes with
    | token _ text pending =>
      rw [text, pending, whole]
      exact valid
    | length final => exact goes _ final valid
    | @string bestEnd bestStart best _ found text pending _ =>
      rw [← whole] at valid
      have ends := Gen.bestStop_endsFirst (gen.append token).text gen.stopCheckOffset
        gen.params.stop
      rw [found] at ends
      obtain ⟨⟨member, some, length, occurs⟩, _⟩ := ends
      have bound := occurs.bound some
      rw [params.trans closing.params.symm] at member
      obtain ⟨before, behind⟩ := ToolCalls.Occurs.cut valid (stops _ member) some
        ((occurs_append (gen.append token).pending bound).mpr occurs)
      rw [text, pending, append_nil]
      split
      · rw [length, ← take_append_of_le_length bound]
        exact behind
      · rw [← take_append_of_le_length (Nat.le_of_add_right_le bound)]
        exact before

end Request

namespace Service

variable {service : Service M}

variable (start : ∀ r, service.fresh r → r.Streams ∧ r.outputs = []) (ended : service.Ended last)

include start ended

theorem Ended.text_valid (stops : ∀ stop ∈ last.params.stop, Valid stop)
    (valid : Valid (M.detokenized last.params last.outputs)) : Valid last.text := by
  obtain ⟨r, next, closing, flushed, _⟩ := ended.closing start
  have params : last.params = next.params := by rw [flushed]; rfl
  have outputs : last.outputs = next.outputs := by rw [flushed]; rfl
  rw [params] at stops valid
  rw [outputs] at valid
  rw [flushed]
  exact closing.text_valid stops valid

/-- The last chunk of a request has its stop reason. -/
theorem Ended.final :
    ∃ front c, last.out = front ++ [c] ∧ c.stopReason = last.stopReason := by
  obtain ⟨r, next, status, why, error, _, same⟩ := ended.closed start
  have out : last.out = (next.close status why error).out := congrArg (fun r => r.out) same
  have gen : last.toGen = next.flush := congrArg (fun r => r.toGen) same
  exact ⟨_, _, out, by rw [gen]; rfl⟩

end Service

end Texts

section Strings

variable {ctx : ServerContext M} {req : GenerationRequest}

/-- What an answer shows of a choice is well-formed UTF-8. -/
structure ResultPrints (req : GenerationRequest) (r : ChoiceResult M) : Prop where
  text : Valid ((if req.kind = .completion then echoed req r.promptIndex else []) ++ r.text)
  reason : Valid r.stopReason
  pieces : req.wantLogprobs = true → ∀ sampled ∈ r.logprobs, SampledPrints req.topLogprobs sampled

theorem sendJson_ok {response : Response M} :
    sendJson response = .ok response ↔ ∀ text ∈ response.strings, Valid text := by
  simp only [sendJson, dump]
  rw [← forall₂_congr fun text (_ : text ∈ response.strings) => Lib.Utf8.checkFrom_iff,
    ← all_eq_true]
  split
  · rename_i all
    exact iff_of_true rfl all
  · rename_i bad
    exact iff_of_false (fun sent => by cases sent) bad

theorem chatAnswer_pieces {logprobs : List (SampledToken M.Logit)} :
    (∀ text ∈ ((if req.wantLogprobs then some (chatLogprobsJson ctx logprobs req.topLogprobs)
        else none).getD []).flatMap TokenLogprob.strings, Valid text) ↔
      (req.wantLogprobs = true → ∀ sampled ∈ logprobs, SampledPrints req.topLogprobs sampled) := by
  split
  · rename_i asked
    exact chatLogprobsJson_strings.trans ⟨fun all _ => all, fun all => all asked⟩
  · rename_i quiet
    exact iff_of_true nofun fun asked => absurd asked quiet

theorem callStrings_valid {calls : List ToolCall}
    (valid : ∀ call ∈ calls, ToolCalls.CallValid call) : ∀ text ∈ callStrings calls, Valid text := by
  intro text member
  obtain ⟨call, inside, own⟩ := mem_flatMap.mp member
  rcases mem_cons.mp own with rfl | own
  · exact (valid call inside).1
  · rw [mem_singleton.mp own]
    exact (valid call inside).2

variable {r : ChoiceResult M}

/-- The strings of a choice of a chat without tools. -/
theorem chatChoice_prints_iff (chat : req.kind = .chat) (plain : req.parseToolCalls = false) :
    (∀ text ∈ (chatChoice ctx req r).strings, Valid text) ↔ ResultPrints req r := by
  rw [chatChoice_plain plain]
  simp only [ChatChoice.strings, forall_mem_append, stopReasonJson_strings,
    chatAnswer_pieces, Option.toList_some, forall_mem_singleton]
  constructor
  · rintro ⟨⟨⟨text, _⟩, pieces⟩, reason⟩
    exact ⟨by simpa [chat] using text, reason, pieces⟩
  · rintro ⟨text, reason, pieces⟩
    exact ⟨⟨⟨by simpa [chat] using text, nofun⟩, pieces⟩, reason⟩

theorem chatChoice_prints (chat : req.kind = .chat) (prints : ResultPrints req r) :
    ∀ text ∈ (chatChoice ctx req r).strings, Valid text := by
  cases tools : req.parseToolCalls with
  | false => exact (chatChoice_prints_iff chat tools).mpr prints
  | true =>
    have text : Valid r.text := by simpa [chat] using prints.text
    have parts := @ToolCalls.parseToolCalls_valid _ ctx.numbers _ text req.toolFormat
    have pieces := (@chatAnswer_pieces M ctx req r.logprobs).mpr prints.pieces
    have reason := stopReasonJson_strings.mpr prints.reason
    unfold chatChoice
    dsimp only
    rw [tools, if_pos rfl]
    split
    · simp only [ChatChoice.strings, forall_mem_append, Option.toList_some, forall_mem_singleton]
      exact ⟨⟨⟨text, nofun⟩, pieces⟩, reason⟩
    simp only [ChatChoice.strings, forall_mem_append]
    refine ⟨⟨⟨?_, callStrings_valid parts.calls⟩, pieces⟩, reason⟩
    split
    · exact nofun
    · rw [Option.toList_some, forall_mem_singleton]
      exact parts.content

theorem completionChoice_prints_iff (completion : req.kind = .completion) :
    (∀ text ∈ (completionChoice ctx req r).strings, Valid text) ↔ ResultPrints req r := by
  have pieces : (∀ text ∈ (completionChoice ctx req r).logprobs.elim [] CompletionLogprobs.strings,
      Valid text) ↔
        (req.wantLogprobs = true → ∀ sampled ∈ r.logprobs,
          SampledPrints req.topLogprobs sampled) := by
    unfold completionChoice
    dsimp only
    split
    · rename_i asked
      exact completionLogprobsJson_strings.trans ⟨fun all _ => all, fun all => all asked⟩
    · rename_i quiet
      exact iff_of_true nofun fun asked => absurd asked quiet
  rw [CompletionChoice.strings, forall_mem_cons, forall_mem_append, pieces]
  simp only [completionChoice, stopReasonJson_strings]
  constructor
  · rintro ⟨text, pieces, reason⟩
    exact ⟨by simpa [completion] using text, reason, pieces⟩
  · rintro ⟨text, reason, pieces⟩
    exact ⟨by simpa [completion] using text, pieces, reason⟩

end Strings

namespace GenerationRun

variable {ctx : ServerContext M} {req : GenerationRequest}
  {streams : Nat → List (OutputChunk M)}

/-- The answer to a request whose choices have ended is sent. -/
def Answered (ctx : ServerContext M) (req : GenerationRequest)
    (streams : Nat → List (OutputChunk M)) : Prop :=
  ∃ response, responseJson ctx req (collected req streams) = .ok response ∧
    sendJson response = .ok response

theorem forall_collected {α : Type} {choice : ChoiceResult M → α} {strings : α → List Bytes} :
    (∀ text ∈ ((collected req streams).map choice).flatMap strings, Valid text) ↔
      ∀ k < req.totalChoices, ∀ text ∈ strings (choice (accumulated req k (streams k))),
        Valid text := by
  rw [flatMap_map, collected, flatMap_map]
  simp only [mem_flatMap, mem_range]
  constructor
  · intro all k inside text member
    exact all text ⟨k, inside, member⟩
  · rintro all text ⟨k, inside, member⟩
    exact all k inside text member

section

variable (completed : ∀ k < req.totalChoices, Completed (streams k))
include completed

theorem answered_iff :
    Answered ctx req streams ↔ req.HeaderPrints ∧ ∀ k < req.totalChoices, ∀ text ∈
      match req.kind with
      | .chat => (chatChoice ctx req (accumulated req k (streams k))).strings
      | .completion => (completionChoice ctx req (accumulated req k (streams k))).strings,
      Valid text := by
  unfold Answered
  rw [collected_response completed]
  simp only [Outcome.ok.injEq, exists_eq_left', sendJson_ok]
  cases req.kind with
  | chat =>
    rw [chatResponseJson, Response.strings, forall_mem_append, forall_collected]
    rfl
  | completion =>
    rw [completionResponseJson, Response.strings, forall_mem_append, forall_collected]
    rfl

/-- Without tools an answer is sent if and only if all it shows is well-formed. -/
theorem answered_plain (plain : req.parseToolCalls = false) :
    Answered ctx req streams ↔ req.HeaderPrints ∧ ∀ k < req.totalChoices,
      ResultPrints req (accumulated req k (streams k)) := by
  rw [answered_iff completed]
  cases kind : req.kind with
  | chat => simp only [chatChoice_prints_iff kind plain]
  | completion => simp only [completionChoice_prints_iff kind]

theorem Answered.of_prints (header : req.HeaderPrints)
    (prints : ∀ k < req.totalChoices, ResultPrints req (accumulated req k (streams k))) :
    Answered ctx req streams := by
  refine (answered_iff completed).mpr ⟨header, ?_⟩
  intro k inside
  cases kind : req.kind with
  | chat => exact chatChoice_prints kind (prints k inside)
  | completion => exact (completionChoice_prints_iff kind).mpr (prints k inside)

end

end GenerationRun

namespace Engine

theorem Submitted.reason {cfg : EngineConfig} {actions : List Action} {r : Request M}
    (submitted : Submitted M cfg actions r) : r.ReasonKnown := by
  cases submitted <;> exact .inl rfl

/-- The stop reason that the answer to a request gets. -/
theorem run_reason (M : Model) (cfg : EngineConfig) (actions : List Action) {r : Request M}
    (done : r ∈ (run M cfg actions).done)
    (why : r.finishReason = .stop ∨ r.finishReason = .length)
    (stops : ∀ stop ∈ r.params.stop, Valid stop) (req : GenerationRequest) (k : Nat) :
    Valid (accumulated req k r.out).stopReason := by
  have ended := (run_invariant M cfg actions).ended r done
  obtain ⟨front, c, shape, reason⟩ := ended.final fun _ => Submitted.streams
  have completed := run_completed M cfg actions done why
  have final : c.finished = true := by
    obtain ⟨last, here, finished, _⟩ := completed.last
    rw [shape, getLast?_concat] at here
    cases here
    exact finished
  rw [shape, accumulated_concat]
  simp only [ChoiceResult.apply, final, if_true, reason]
  exact (ended.reason fun _ => Submitted.reason).valid stops

theorem accumulated_streamed (req : GenerationRequest) (k : Nat) (r : Request M) :
    (accumulated req k r.out).text = r.streamed := by
  rw [accumulated_text, Request.streamed, Request.texts, flatMap_def]

theorem run_streamed_valid (M : Model) (cfg : EngineConfig) (actions : List Action)
    {r : Request M} (done : r ∈ (run M cfg actions).done) (keeps : r.FirstSearchKeeps)
    (stops : ∀ stop ∈ r.params.stop, Valid stop)
    (valid : Valid (M.detokenized r.params r.outputs)) : Valid r.streamed := by
  have ended := (run_invariant M cfg actions).ended r done
  rw [ended.streamed (fun _ => Submitted.streams) keeps]
  exact ended.text_valid (fun _ => Submitted.streams) stops valid

end Engine

/-- The text and the tokens that an answer shows of request `r` as choice `k` are well-formed
UTF-8. -/
structure Request.ShownPrints (req : GenerationRequest) (k : Nat) (r : Request M) : Prop where
  text : Valid ((if req.kind = .completion then echoed req (k / req.n) else []) ++ r.streamed)
  pieces : req.wantLogprobs = true → ∀ sampled ∈ r.sentLogprobs,
    SampledPrints req.topLogprobs sampled

/-- The tokens of a request spell well-formed texts: those of the answer together, those of
the log-probabilities one by one. -/
structure Request.SpellsAnswer (req : GenerationRequest) (k : Nat) (r : Request M) : Prop where
  keeps : r.FirstSearchKeeps
  text : Valid (M.detokenized r.params r.outputs)
  prompt : req.kind = .completion → Valid (echoed req (k / req.n))
  pieces : req.wantLogprobs = true → ∀ sampled ∈ r.sentLogprobs,
    SampledPrints req.topLogprobs sampled

namespace Engine

open GenerationRun (Answered)

theorem run_resultPrints (M : Model) (cfg : EngineConfig) (actions : List Action) {r : Request M}
    (done : r ∈ (run M cfg actions).done)
    (why : r.finishReason = .stop ∨ r.finishReason = .length)
    (stops : ∀ stop ∈ r.params.stop, Valid stop) (req : GenerationRequest) (k : Nat) :
    ResultPrints req (accumulated req k r.out) ↔ r.ShownPrints req k := by
  constructor
  · rintro ⟨text, _, pieces⟩
    rw [accumulated_streamed, accumulated_promptIndex] at text
    rw [accumulated_logprobs] at pieces
    exact ⟨text, pieces⟩
  · rintro ⟨text, pieces⟩
    refine ⟨?_, run_reason M cfg actions done why stops req k, ?_⟩
    · rw [accumulated_streamed, accumulated_promptIndex]
      exact text
    · rw [accumulated_logprobs]
      exact pieces

/-- The answer to requests that have ended with STOP or LENGTH is sent when their tokens spell
well-formed texts, and without tools if and only if what it shows is well-formed. -/
theorem run_answered (M : Model) (cfg : EngineConfig) (actions : List Action)
    (ctx : ServerContext M) (req : GenerationRequest) (requests : Nat → Request M)
    (done : ∀ k < req.totalChoices, requests k ∈ (run M cfg actions).done)
    (why : ∀ k < req.totalChoices,
      (requests k).finishReason = .stop ∨ (requests k).finishReason = .length)
    (header : req.HeaderPrints)
    (stops : ∀ k < req.totalChoices, ∀ stop ∈ (requests k).params.stop, Valid stop) :
    ((∀ k < req.totalChoices, (requests k).SpellsAnswer req k) →
        Answered ctx req (fun k => (requests k).out)) ∧
      ((∀ k < req.totalChoices, (requests k).ShownPrints req k) →
        Answered ctx req (fun k => (requests k).out)) ∧
      (req.parseToolCalls = false → Answered ctx req (fun k => (requests k).out) →
        ∀ k < req.totalChoices, (requests k).ShownPrints req k) := by
  have completed : ∀ k < req.totalChoices, Completed (requests k).out := fun k inside =>
    run_completed M cfg actions (done k inside) (why k inside)
  have results : ∀ k < req.totalChoices, ResultPrints req (accumulated req k (requests k).out) ↔
      (requests k).ShownPrints req k := fun k inside =>
    run_resultPrints M cfg actions (done k inside) (why k inside) (stops k inside) req k
  have shown : (∀ k < req.totalChoices, (requests k).ShownPrints req k) →
      Answered ctx req (fun k => (requests k).out) := by
    intro all
    exact .of_prints completed header fun k inside => (results k inside).mpr (all k inside)
  refine ⟨?_, shown, ?_⟩
  · intro all
    apply shown
    intro k inside
    obtain ⟨keeps, text, prompt, pieces⟩ := all k inside
    have streamed := run_streamed_valid M cfg actions (done k inside) keeps (stops k inside) text
    refine ⟨?_, pieces⟩
    split
    · rename_i completion
      exact (prompt completion).append streamed
    · exact streamed
  · intro plain answered k inside
    exact (results k inside).mp (((GenerationRun.answered_plain completed plain).mp answered).2 k
      inside)

theorem run_answered_held :
    ∃ r ∈ (run Model.spelling streamConfig (heldRun [5, 5] [0x78, 0x79])).done,
      r.streamed = [0x62, 0xC3, 0xA9] ∧
        Answered GenerationRun.spellingContext (GenerationRun.chatRequest false)
          (fun _ => r.out) := by
  have found : ∃ r ∈ (run Model.spelling streamConfig (heldRun [5, 5] [0x78, 0x79])).done,
      r.finishReason = .length ∧ (∀ stop ∈ r.params.stop, Valid stop) ∧ r.FirstSearchKeeps ∧
        Valid (Model.spelling.detokenized r.params r.outputs) ∧
        r.streamed = [0x62, 0xC3, 0xA9] := by
    decide +kernel
  obtain ⟨r, done, why, stops, keeps, text, streamed⟩ := found
  refine ⟨r, done, streamed, ?_⟩
  refine (run_answered _ _ _ GenerationRun.spellingContext (GenerationRun.chatRequest false)
    (fun _ => r) (fun _ _ => done) (fun _ _ => .inr why) (by decide) (fun _ _ => stops)).1 ?_
  exact fun _ _ => ⟨keeps, text, nofun, nofun⟩

/-- The counting network with a token for each byte of `é`. -/
def bytewise : Model :=
  { Model.counting with
    tokenToPiece := fun token _ =>
      if token = 1 then [0xC3] else if token = 2 then [0xA9] else [] }

def bytewiseContext : ServerContext bytewise where
  Num := _
  numbers := .spelled
  cleanLogprob logprob := logprob.getD (0 : Int)

def bytewiseRun (maxTokens : Int) : List Action :=
  [.submit [5] { maxTokens := maxTokens, logprobs := 0 } {}, .step {}, .step {}]

/-- The first byte of `é` alone cannot be sent, nor can the log-probabilities of both. -/
theorem run_unanswered :
    (∃ r ∈ (run bytewise streamConfig (bytewiseRun 1)).done, r.finishReason = .length ∧
        r.streamed = [0xC3] ∧
        ¬ Answered bytewiseContext (GenerationRun.chatRequest false) (fun _ => r.out)) ∧
      ∃ r ∈ (run bytewise streamConfig (bytewiseRun 2)).done, r.finishReason = .length ∧
        r.streamed = [0xC3, 0xA9] ∧
        ¬ Answered bytewiseContext
          { GenerationRun.chatRequest false with wantLogprobs := true } (fun _ => r.out) := by
  have cut : ∃ r ∈ (run bytewise streamConfig (bytewiseRun 1)).done, r.finishReason = .length ∧
      r.streamed = [0xC3] ∧ Completed r.out := by
    decide +kernel
  have whole : ∃ r ∈ (run bytewise streamConfig (bytewiseRun 2)).done, r.finishReason = .length ∧
      r.streamed = [0xC3, 0xA9] ∧ Completed r.out ∧
      ∃ sampled ∈ r.sentLogprobs, ¬ SampledPrints 0 sampled := by
    decide +kernel
  refine ⟨?_, ?_⟩
  · obtain ⟨r, done, why, streamed, completed⟩ := cut
    refine ⟨r, done, why, streamed, ?_⟩
    intro answered
    have text := (((GenerationRun.answered_plain (fun _ _ => completed) rfl).mp answered).2 0
      (by decide)).text
    rw [accumulated_streamed, streamed] at text
    exact absurd (show Valid ([] ++ [0xC3]) from text) (by decide)
  · obtain ⟨r, done, why, streamed, completed, sampled, member, broken⟩ := whole
    refine ⟨r, done, why, streamed, ?_⟩
    intro answered
    have pieces := (((GenerationRun.answered_plain (fun _ _ => completed) rfl).mp answered).2 0
      (by decide)).pieces rfl
    rw [accumulated_logprobs] at pieces
    exact broken (pieces sampled member)

end Engine

end Iian
