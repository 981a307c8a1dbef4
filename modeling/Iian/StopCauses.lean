import Iian.Answers
import Iian.StopExact

/- What has stopped a request: the text it ends with, and the reason the client is told. -/
namespace Iian

open List

variable {M : Model}

/-- What can stop a generation that has not run out of room. -/
inductive StopCause
  | eog
  | token (token : Token)
  | string (stop : Bytes)
deriving DecidableEq, Repr

namespace StopCause

/-- `stop_reason` of the engine: both kinds of reason are flattened into one string. -/
def reason : StopCause → Bytes
  | .eog => []
  | .token id => Gen.tokenText id
  | .string stop => stop

end StopCause

variable {gen next : Gen M} {token : Token} {maxModelLen : Nat} {r : Request M} {c : OutputChunk M}

namespace Gen

/-- What stops the request at its last token: the token itself, or else the stop string that
the search of the whole text finds. -/
def stopCause (gen : Gen M) : Option StopCause :=
  match gen.outputs.getLast? with
  | none => none
  | some token =>
    if M.isEog token && !gen.params.ignoreEos then some .eog
    else if gen.params.stopTokenIds.contains token then some (.token token)
    else (bestStop (M.spell gen.params gen.outputs).1 0 gen.params.stop).map
      (fun found => .string found.2.2)

/-- A search for one string that occurs only behind the offset. -/
theorem findFrom_late {text pattern : Bytes} {start : Nat} (some : pattern ≠ [])
    (late : ∀ pos, Occurs pattern text pos → start ≤ pos) :
    findFrom text pattern start = findFrom text pattern 0 := by
  cases found : findFrom text pattern start with
  | none =>
    cases other : findFrom text pattern 0 with
    | none => rfl
    | some pos =>
      have occurs := (findFrom_some other).2.1
      exact (findFrom_none some found pos (late pos occurs) occurs).elim
  | some pos =>
    have here := findFrom_some found
    cases other : findFrom text pattern 0 with
    | none => exact (findFrom_none some other pos (Nat.zero_le _) here.2.1).elim
    | some first =>
      have there := findFrom_some other
      have low := here.2.2 first (late first there.2.1) there.2.1
      have high := there.2.2 pos (Nat.zero_le _) here.2.1
      rw [Nat.le_antisymm low high]

/-- The search from the offset finds the very occurrence that a search of the whole text
finds. -/
theorem Going.bestStop_whole (going : gen.Going) (token : Token) :
    bestStop (gen.append token).text gen.stopCheckOffset gen.params.stop =
      bestStop (gen.append token).text 0 gen.params.stop := by
  by_cases before : gen.Searched
  · rw [bestStop_eq, bestStop_eq]
    apply foldl_ext
    intro best stop member
    unfold searchTurn
    by_cases blank : stop.isEmpty
    · rw [if_pos blank, if_pos blank]
    have some : stop ≠ [] := fun empty => blank (by rw [empty]; rfl)
    rw [if_neg blank, if_neg blank, findFrom_late some, Nat.zero_sub]
    intro pos occurs
    by_contra early
    obtain ⟨more, same⟩ := gen.text_append token
    rw [going.searched before] at early
    rw [← same] at occurs
    exact going.clean before stop member some pos ((occurs_append more (by omega)).mp occurs)
  · rw [going.unsearched before]

/-- How a request has been stopped: its stop reason tells the cause, and only a stop string
cuts its text. -/
structure Stopped (gen : Gen M) (cause : StopCause) : Prop where
  why : gen.stopCause = some cause
  reason : gen.stopReason = cause.reason
  text : (∀ stop, cause ≠ .string stop) →
    gen.text ++ gen.pending = M.detokenized gen.params gen.outputs

theorem Going.getLast_append (going : gen.Going) (token : Token) :
    (gen.append token).outputs.getLast? = some token := by
  rw [going.outputs_append, getLast?_concat]

theorem Going.text_whole (going : gen.Going) (token : Token) :
    (gen.append token).text ++ (gen.append token).pending =
      M.detokenized gen.params (gen.append token).outputs := by
  rw [← (M.spell_detokenized gen.params (gen.append token).outputs).1, ← going.spelled_append]

theorem stopCause_last (last : gen.outputs.getLast? = some token) :
    gen.stopCause =
      if M.isEog token && !gen.params.ignoreEos then some .eog
      else if gen.params.stopTokenIds.contains token then some (.token token)
      else (bestStop (M.spell gen.params gen.outputs).1 0 gen.params.stop).map
        (fun found => .string found.2.2) := by
  rw [stopCause, last]

theorem checkStrings_reason (checked : gen.checkStrings = (next, none)) :
    next.stopReason = gen.stopReason := by
  unfold checkStrings at checked
  split at checked
  · split at checked <;> cases checked
    rfl
  · cases checked
    rfl

/-- A stop string that the search behind a token finds. -/
theorem Going.stopped_strings (going : gen.Going) (passes : ¬ gen.Halts token)
    (checked : (gen.append token).checkStrings = (next, some .stop)) :
    ∃ cause, next.Stopped cause := by
  have core := checkStrings_core (gen.append token)
  rw [checked] at core
  have params : next.params = gen.params := congrArg Prod.fst core
  have outputs : next.outputs = (gen.append token).outputs :=
    congrArg (fun core => core.2.1.drop core.2.2.1) core
  cases going.checkStrings_some checked with
  | token halts => exact (passes halts).elim
  | @string bestEnd bestStart best _ found _ _ reason =>
    refine ⟨.string best, ?_, reason, fun other => (other best rfl).elim⟩
    have last : next.outputs.getLast? = some token := by rw [outputs, going.getLast_append]
    rw [stopCause_last last, params, if_neg (fun eog => passes (.inl eog)),
      if_neg (fun listed => passes (.inr listed)), outputs, ← going.spelled_append,
      ← going.bestStop_whole, found]
    rfl

variable {stop : Option FinishReason}

/-- The stop reason stays empty while nothing has stopped the request. -/
theorem Going.stopped_pushToken (going : gen.Going) (fresh : gen.stopReason = [])
    (pushed : gen.pushToken maxModelLen token = (next, stop)) :
    (stop = none → next.stopReason = []) ∧ (stop = some .stop → ∃ cause, next.Stopped cause) := by
  have last := going.getLast_append token
  have whole := going.text_whole token
  rw [pushToken_eq] at pushed
  by_cases eog : (M.isEog token && !gen.params.ignoreEos) = true
  · rw [if_pos eog] at pushed
    cases pushed
    refine ⟨fun none => (by cases none), fun _ => ⟨.eog, ?_, fresh, fun _ => whole⟩⟩
    exact (stopCause_last last).trans (if_pos eog)
  · rw [if_neg eog] at pushed
    by_cases listed : gen.params.stopTokenIds.contains token = true
    · rw [if_pos listed] at pushed
      cases pushed
      refine ⟨fun none => (by cases none), fun _ => ⟨.token token, ?_, rfl, fun _ => whole⟩⟩
      exact (stopCause_last last).trans ((if_neg eog).trans (if_pos listed))
    · rw [if_neg listed] at pushed
      have passes : ¬ gen.Halts token := fun halts => halts.elim eog listed
      generalize checked : (gen.append token).checkStrings = result at pushed
      obtain ⟨final, found⟩ := result
      cases found with
      | none =>
        cases pushed
        refine ⟨fun _ => (checkStrings_reason checked).trans fresh, ?_⟩
        intro ended
        cases checkLength_why ended
      | some why =>
        cases pushed
        refine ⟨fun none => (by cases none), ?_⟩
        intro ended
        cases ended
        exact going.stopped_strings passes checked

theorem Going.stopped_step (going : gen.Going) (fresh : gen.stopReason = []) {row : List M.Logit}
    {sampled : SampledToken M.Logit}
    (stepped : gen.step maxModelLen row = .ok (sampled, next, stop)) :
    (stop = none → next.stopReason = []) ∧ (stop = some .stop → ∃ cause, next.Stopped cause) := by
  obtain ⟨middle, sampling, pushed⟩ := step_pushes stepped
  apply (going.sampleToken sampling).stopped_pushToken _ pushed
  rw [(sampleToken_fields sampling).1]
  exact fresh

end Gen

namespace Request

/-- A request without a stop reason has none behind its rows, or has been stopped by them. -/
theorem verify_stopped {nSpec : Nat} {rows : List (List M.Logit)} {next : Request M}
    {ended : RowsEnd} (going : r.Going) (fresh : r.stopReason = [])
    (verified : r.verify maxModelLen rows nSpec = (next, ended)) :
    (ended = .next → next.stopReason = []) ∧
      (ended = .stop .stop → ∃ cause, next.Stopped cause) := by
  have loop := @verifyRows_rule M maxModelLen (fun gen => gen.Going ∧ gen.stopReason = [])
    (fun before stepped => ⟨(before.1.step stepped).1 rfl,
      (before.1.stopped_step before.2 stepped).1 rfl⟩)
    rows (r.specTokens.take nSpec) r ⟨going, fresh⟩
  unfold verify at verified
  generalize verifyRows maxModelLen rows (r.specTokens.take nSpec) r = result at loop verified
  obtain ⟨last, nAccepted, final⟩ := result
  have facts : (final = .next → last.stopReason = []) ∧
      (final = .stop .stop → ∃ cause, last.Stopped cause) := by
    refine ⟨fun goes => (loop.1 goes).2, ?_⟩
    intro stopped
    obtain ⟨gen, row, sampled, before, stepped⟩ := loop.2 _ stopped
    exact (before.1.stopped_step before.2 stepped).2 rfl
  cases final <;> cases verified <;> exact facts

end Request

namespace Service

variable {service : Service M}

theorem Lives.reason_nil (start : ∀ r, service.fresh r → r.Streams ∧ r.stopReason = [])
    (lives : service.Lives r) : r.stopReason = [] := by
  induction lives with
  | submit fresh => exact (start _ fresh).2
  | place _ same ih => exact (congrArg (fun r => r.stopReason) same).trans ih
  | @sample r next nSpec rows lives _ drafts computed _ verified ih =>
    have streams := lives.streams (fun r fresh => (start r fresh).1)
    rw [Request.deliver_fields, Engine.lookupDrafts_fields]
    exact (Request.verify_stopped streams.going ih verified).1 rfl
  | draft _ _ _ _ ih => exact ih
  | pool _ _ _ _ _ _ ih => exact ih

/-- A request that has ended with STOP is an embedding, or something has stopped it. -/
theorem Ended.stopped (start : ∀ r, service.fresh r → r.Streams ∧ r.outputs = [] ∧
      r.stopReason = []) {last : Request M} (ended : service.Ended last)
    (stop : last.finishReason = .stop) :
    (last.isEmbedding = true ∧ last.outputs = []) ∨
      ∃ cause, last.stopCause = some cause ∧ last.stopReason = cause.reason ∧
        ((∀ stop, cause ≠ .string stop) → last.text = M.detokenized last.params last.outputs) := by
  have fresh : ∀ r, service.fresh r → r.Streams ∧ r.stopReason = [] :=
    fun r fresh => ⟨(start r fresh).1, (start r fresh).2.2⟩
  cases ended with
  | @cut r last status why error lives kind same =>
    have reason : last.finishReason = why := congrArg (fun r => r.finishReason) same
    rw [← reason, stop] at kind
    rcases kind with abort | error
    · cases abort
    · cases error
  | @stop r next last nSpec rows why lives _ drafts computed _ verified same =>
    have reason : last.finishReason = why := congrArg (fun r => r.finishReason) same
    have flushed : last.toGen = next.flush := congrArg (fun r => r.toGen) same
    rw [stop] at reason
    subst reason
    have streams := lives.streams (fun r new => (fresh r new).1)
    obtain ⟨cause, stopped⟩ :=
      (Request.verify_stopped streams.going (lives.reason_nil fresh) verified).2 rfl
    refine .inr ⟨cause, ?_⟩
    rw [flushed]
    exact ⟨stopped.why, stopped.reason, stopped.text⟩
  | @embedded r last _ rows lives embedding _ _ _ _ same =>
    have kind : last.isEmbedding = r.isEmbedding := congrArg (fun r => r.isEmbedding) same
    have outputs : last.outputs = r.outputs := congrArg (fun r => r.toGen.outputs) same
    refine .inl ⟨kind.trans embedding, ?_⟩
    rw [outputs]
    exact lives.outputs_nil (fun r fresh => (start r fresh).2.1) embedding

end Service

section Reports

/-- The stop reason that a frame shows. -/
def Frame.stopReason : Frame M → Option StopReason
  | .chat _ chunk => chunk.stopReason
  | .completion _ chunk => chunk.stopReason
  | .usage .. | .error _ | .done => none

/-- The stop reason of a request in the answer, and in the stream: only its last chunk shows
one, once. -/
structure Request.Reports (r : Request M) (shown : StopReason) : Prop where
  chat : ∀ (ctx : ServerContext M) req k,
    (chatChoice ctx req (accumulated req k r.out)).stopReason = shown
  completion : ∀ (ctx : ServerContext M) req k,
    (completionChoice ctx req (accumulated req k r.out)).stopReason = shown
  stream : ∀ (ctx : ServerContext M) req result choice, ∃ front last, r.out = front ++ [last] ∧
    (∀ c ∈ front, (framesFor ctx req result choice c).1.filterMap Frame.stopReason = []) ∧
    (framesFor ctx req result choice last).1.filterMap Frame.stopReason = [shown]

theorem chatChoice_stopReason (ctx : ServerContext M) (req : GenerationRequest)
    (c : ChoiceResult M) : (chatChoice ctx req c).stopReason = stopReasonJson c.stopReason := by
  unfold chatChoice
  dsimp only
  split
  · split <;> rfl
  · rfl

@[simp] theorem Frame.stopReason_chatChunkJson (req : GenerationRequest) (index : Nat)
    (delta : Delta) (logprobs : Option (List (TokenLogprob M))) (finish : FinishReason)
    (stopReason : Bytes) :
    (chatChunkJson req index delta logprobs finish stopReason).stopReason =
      chunkStop finish stopReason := rfl

@[simp] theorem Frame.stopReason_completionChunkJson (req : GenerationRequest) (index : Nat)
    (text : Bytes) (logprobs : Option (CompletionLogprobs M)) (finish : FinishReason)
    (stopReason : Bytes) :
    (completionChunkJson req index text logprobs finish stopReason).stopReason =
      chunkStop finish stopReason := rfl

@[simp] theorem chunkStop_none (stopReason : Bytes) : chunkStop .none stopReason = none := rfl

@[simp] theorem roleFrames_silent (req : GenerationRequest) (index : Nat) (choice : Choice) :
    (roleFrames (M := M) req index choice).filterMap Frame.stopReason = [] := by
  unfold roleFrames
  split <;> simp

theorem heldFrames_silent (req : GenerationRequest) (result : ChoiceResult M) (contentSent : Nat)
    (logprobs : Option (List (TokenLogprob M))) :
    (heldFrames req result contentSent logprobs).1.filterMap Frame.stopReason = [] := by
  unfold heldFrames
  dsimp only
  split
  · simp
  · split <;> simp

section

variable (ctx : ServerContext M) (req : GenerationRequest) (result : ChoiceResult M)

theorem closingFrames_stop (contentSent : Nat) (logprobs : Option (List (TokenLogprob M)))
    (reason : c.finishReason ≠ .none) :
    (closingFrames ctx req result contentSent logprobs c).filterMap Frame.stopReason =
      [stopReasonJson c.stopReason] := by
  unfold closingFrames
  dsimp only
  split
  · split <;> simp [chunkStop, reason]
  have shown : (if c.finishReason = .stop then FinishReason.toolCalls else c.finishReason) ≠
      .none := by
    split
    · intro same
      cases same
    · exact reason
  split <;> simp [chunkStop, shown]

/-- The last chunk of a stream shows its stop reason, the others show none. -/
theorem framesFor_stops (choice : Choice) (ends : c.finished = true ↔ c.finishReason ≠ .none)
    (error : c.error = "") : (framesFor ctx req result choice c).1.filterMap Frame.stopReason =
      if c.finished then [stopReasonJson c.stopReason] else [] := by
  rw [framesFor, if_neg (by simp [error])]
  cases finished : c.finished
  all_goals
    rw [finished] at ends
    cases req.kind with
    | chat =>
      dsimp only [chatFrames]
      by_cases plain : (!req.parseToolCalls) = true
      · rw [if_pos plain]
        by_cases blank : (c.text.isEmpty && (chatLogprobs ctx req c).isNone) = true <;>
          simp_all [plainFrames, chunkStop]
      · rw [if_neg plain]
        simp_all [heldFrames_silent, closingFrames_stop]
    | completion =>
      dsimp only [completionFrames]
      split <;> simp_all [chunkStop]

end

/-- A request that has ended reports its stop reason. -/
theorem Service.Ended.reports {service : Service M}
    (start : ∀ r, service.fresh r → r.Streams ∧ r.outputs = []) (ended : service.Ended r)
    (completed : Completed r.out) : r.Reports (stopReasonJson r.stopReason) := by
  obtain ⟨front, last, shape, going, finished, why, error⟩ := completed.shape
  obtain ⟨front', last', same, reason⟩ := ended.final start
  rw [shape] at same
  obtain ⟨rfl, rfl⟩ : front = front' ∧ last = last' := by simpa using same
  have answer : ∀ req k, (accumulated req k r.out).stopReason = r.stopReason := by
    intro req k
    rw [shape, accumulated_concat]
    simp only [ChoiceResult.apply, finished, if_true, reason]
  constructor
  · intro ctx req k
    rw [chatChoice_stopReason, answer]
  · intro ctx req k
    simp only [completionChoice, answer]
  intro ctx req result choice
  refine ⟨front, last, shape, ?_, ?_⟩
  · intro c member
    obtain ⟨goes, none, fine⟩ := going c member
    rw [framesFor_stops ctx req result choice (by simp [goes, none]) fine, goes]
    rfl
  · rw [← reason, framesFor_stops ctx req result choice ?_ error, finished]
    · rfl
    · rcases why with none | none <;> simp [finished, none]

end Reports

section Codes

open Lib.Json (isDigit)

/-- The reason is read back as what it was: the id has less than ten digits, the stop string
is not the text of such an id. -/
def StopCause.Clear : StopCause → Prop
  | .eog => True
  | .token id => (0 : Int) ≤ id ∧ (id : Int) < 10 ^ 9
  | .string stop => ¬ (stop.all isDigit && stop.length < 10) = true

/-- The stop reason of a response tells what stopped the generation. -/
structure StopReason.Identifies (shown : StopReason) (cause : StopCause) : Prop where
  token : ∀ id : Nat, shown = .token id ↔ cause = .token id
  string : ∀ stop, shown = .text stop ↔ cause = .string stop
  eog : shown = .null ↔ cause = .eog

theorem tokenText_ofNat (id : Nat) : Gen.tokenText id =
    (Nat.toDigits 10 id).map (fun digit => UInt8.ofNat digit.toNat) := by
  change ((Nat.repr id).toList).map _ = _
  rw [Nat.repr, String.toList_ofList]

theorem toDigits_bounds {id : Nat} {digit : Char} (member : digit ∈ Nat.toDigits 10 id) :
    0x30 ≤ digit.toNat ∧ digit.toNat ≤ 0x39 := by
  have decimal := Nat.isDigit_of_mem_toDigits (by decide) (by decide) member
  simp only [Char.isDigit, Bool.and_eq_true, decide_eq_true_eq] at decimal
  exact decimal

/-- Reading the digits of an id gives the id. -/
theorem tokenText_value (id : Nat) :
    (Gen.tokenText id).foldl (fun value digit => value * 10 + (digit.toNat - 0x30)) 0 = id := by
  rw [tokenText_ofNat, foldl_map]
  refine Eq.trans ?_ (Nat.ofDigitChars_toDigits (b := 10) (n := id) (by decide) (by decide))
  apply foldl_ext
  intro value digit member
  have bounds := toDigits_bounds member
  rw [UInt8.toNat_ofNat_of_lt' (by change _ < 256; omega), Nat.mul_comm]
  rfl

theorem tokenText_digits (id : Nat) : (Gen.tokenText id).all isDigit = true := by
  rw [tokenText_ofNat, all_map, all_eq_true]
  intro digit member
  have bounds := toDigits_bounds member
  simp only [Function.comp_apply, isDigit, Bool.and_eq_true, decide_eq_true_eq]
  rw [UInt8.toNat_ofNat_of_lt' (by change _ < 256; omega)]
  exact bounds

theorem tokenText_short (id : Nat) : (Gen.tokenText id).length < 10 ↔ id < 10 ^ 9 := by
  rw [tokenText_ofNat, length_map, Nat.lt_succ_iff]
  exact Nat.length_toDigits_le_iff (by decide) (by decide)

theorem tokenText_negSucc (id : Nat) : ∃ rest, Gen.tokenText (Int.negSucc id) = 0x2D :: rest := by
  have text : Gen.tokenText (Int.negSucc id) =
      ("-" ++ Nat.repr (id + 1)).toList.map (fun digit => UInt8.ofNat digit.toNat) := rfl
  rw [text, String.toList_append]
  exact ⟨_, rfl⟩

theorem stopReasonJson_short {reason : Bytes} (some : reason ≠ [])
    (short : (reason.all isDigit && reason.length < 10) = true) :
    ∃ id, stopReasonJson reason = .token id := by
  simp [stopReasonJson, some, short]

theorem stopReasonJson_text {reason : Bytes} (some : reason ≠ [])
    (plain : ¬ (reason.all isDigit && reason.length < 10) = true) :
    stopReasonJson reason = .text reason := by
  simp [stopReasonJson, some, plain]

theorem tokenText_ne_nil (token : Token) : Gen.tokenText token ≠ [] := by
  cases token with
  | ofNat id =>
    change Gen.tokenText id ≠ []
    rw [tokenText_ofNat]
    simp
  | negSucc id =>
    obtain ⟨rest, same⟩ := tokenText_negSucc id
    simp [same]

/-- Exactly the ids of up to nine digits are read back as ids. -/
theorem stopReasonJson_token (token : Int) :
    (0 ≤ token ∧ token < 10 ^ 9 → stopReasonJson (Gen.tokenText token) = .token token.toNat) ∧
    (¬ (0 ≤ token ∧ token < 10 ^ 9) →
      stopReasonJson (Gen.tokenText token) = .text (Gen.tokenText token)) := by
  have some := tokenText_ne_nil token
  cases token with
  | ofNat id =>
    have digits := tokenText_digits id
    have short := tokenText_short id
    have value := tokenText_value id
    simp only [Int.ofNat_eq_natCast, Int.toNat_natCast] at some ⊢
    constructor
    · intro low
      have fits : (Gen.tokenText id).length < 10 := short.mpr (by omega)
      simp [stopReasonJson, some, digits, fits, value]
    · intro high
      apply stopReasonJson_text some
      rw [digits, Bool.true_and, decide_eq_true_eq, short]
      omega
  | negSucc id =>
    constructor
    · omega
    intro _
    apply stopReasonJson_text some
    obtain ⟨rest, same⟩ := tokenText_negSucc id
    simp [same, isDigit]

/-- The response identifies exactly the causes that are clear. -/
theorem StopCause.identified {cause : StopCause} (some : cause ≠ .string []) :
    (stopReasonJson cause.reason).Identifies cause ↔ cause.Clear := by
  cases cause with
  | eog => exact iff_of_true ⟨by simp [reason, stopReasonJson], by simp [reason, stopReasonJson],
      by simp [reason, stopReasonJson]⟩ trivial
  | token id =>
    constructor
    · intro identifies
      by_contra vague
      have text := (stopReasonJson_token id).2 vague
      cases (identifies.string _).mp text
    · intro clear
      have shown := (stopReasonJson_token id).1 clear
      obtain ⟨count, rfl⟩ := Int.eq_ofNat_of_zero_le clear.1
      rw [reason, shown]
      refine ⟨?_, by simp, by simp⟩
      intro other
      simp only [Int.toNat_natCast, StopReason.token.injEq, StopCause.token.injEq]
      exact Int.natCast_inj.symm
  | string stop =>
    have present : stop ≠ [] := fun empty => some (by rw [empty])
    constructor
    · intro identifies short
      obtain ⟨id, shown⟩ := stopReasonJson_short present short
      cases (identifies.token id).mp shown
    · intro clear
      rw [reason, stopReasonJson_text present clear]
      exact ⟨by simp, by simp, by simp⟩

end Codes

namespace Gen

theorem stopCause_token (cause : gen.stopCause = some (.token token)) :
    gen.outputs = gen.outputs.dropLast ++ [token] := by
  unfold stopCause at cause
  split at cause
  · cases cause
  rename_i last found
  have same : last = token := by
    split at cause
    · cases cause
    split at cause
    · cases cause
      rfl
    · simp at cause
  rw [same] at found
  exact (dropLast_append_getLast? token found).symm

/-- No empty string stops a request. -/
theorem stopCause_string : gen.stopCause ≠ some (.string []) := by
  intro cause
  unfold stopCause at cause
  split at cause
  · cases cause
  split at cause
  · cases cause
  split at cause
  · cases cause
  have ends := bestStop_endsFirst (M.spell gen.params gen.outputs).1 0 gen.params.stop
  simp only [Option.map_eq_some_iff, StopCause.string.injEq] at cause
  obtain ⟨found, search, empty⟩ := cause
  rw [search] at ends
  exact ends.1.2.1 empty

end Gen

namespace Engine

theorem Submitted.unstopped {cfg : EngineConfig} {actions : List Action}
    (submitted : Submitted M cfg actions r) : r.Streams ∧ r.outputs = [] ∧ r.stopReason = [] := by
  refine ⟨submitted.streams.1, submitted.streams.2, ?_⟩
  cases submitted <;> rfl

/-- The text of a stop token is part of the text, whatever `include_stop_str_in_output` says:
it is missing only if the token has no text. -/
theorem run_stopToken_text (M : Model) (cfg : EngineConfig) (actions : List Action)
    {r : Request M} (done : r ∈ (run M cfg actions).done) (stop : r.finishReason = .stop)
    {token : Token} (cause : r.stopCause = some (.token token)) (plain : M.isEog token = false) :
    r.text = M.detokenized r.params r.outputs.dropLast ↔
      M.tokenToPiece token (!r.params.skipSpecialTokens) = [] := by
  have outputs := Gen.stopCause_token cause
  rcases ((run_invariant M cfg actions).ended r done).stopped (fun _ => Submitted.unstopped) stop
    with ⟨_, blank⟩ | ⟨found, why, _, text⟩
  · simp [blank] at outputs
  rw [cause] at why
  cases why
  rw [text nofun]
  nth_rewrite 1 [outputs]
  rw [Model.detokenized_concat]
  simp [Model.shown, plain]

/-- A request with one stop token. -/
def listedRun (token : Token) : List Action :=
  [.submit [5] { stopTokenIds := [token] } {}, .step {}, .step {}, .step {}, .step {}]

theorem run_stopToken_text_blank :
    ∃ r ∈ (run Model.spelling streamConfig (listedRun 4)).done,
      r.text = Model.spelling.detokenized r.params r.outputs.dropLast := by
  have found : ∃ r ∈ (run Model.spelling streamConfig (listedRun 4)).done,
      r.finishReason = .stop ∧ r.stopCause = some (.token 4) := by
    decide +kernel
  obtain ⟨r, done, stop, cause⟩ := found
  exact ⟨r, done, (run_stopToken_text _ _ _ done stop cause (by decide)).mpr rfl⟩

/-- The text ends with the `b` of the stop token. -/
theorem run_stopToken_kept :
    ∃ r ∈ (run Model.spelling streamConfig (listedRun 2)).done,
      r.params.includeStopStrInOutput = false ∧ r.finishReason = .stop ∧
      r.stopCause = some (.token 2) ∧ Model.spelling.isEog 2 = false ∧ r.text = [0x61, 0x62] ∧
      r.text ≠ Model.spelling.detokenized r.params r.outputs.dropLast := by
  decide +kernel

/-- The stop reason of every response to a generation that has ended with STOP. It tells what
stopped it, unless the id of a stop token has more than nine digits or the stop string has
only digits, and less than ten of them. -/
theorem run_stopReason (M : Model) (cfg : EngineConfig) (actions : List Action)
    {r : Request M} (done : r ∈ (run M cfg actions).done) (stop : r.finishReason = .stop)
    (generation : r.isEmbedding = false) :
    ∃ cause shown, r.stopCause = some cause ∧ r.Reports shown ∧
      (shown.Identifies cause ↔ cause.Clear) := by
  have ended := (run_invariant M cfg actions).ended r done
  rcases ended.stopped (fun _ => Submitted.unstopped) stop
    with ⟨embedding, _⟩ | ⟨cause, why, reason, _⟩
  · cases generation.symm.trans embedding
  refine ⟨cause, stopReasonJson cause.reason, why, ?_, ?_⟩
  · rw [← reason]
    exact ended.reports (fun _ => Submitted.streams) (run_completed M cfg actions done (.inl stop))
  apply StopCause.identified
  intro empty
  rw [empty] at why
  exact Gen.stopCause_string why

theorem run_stopReason_listed :
    ∃ r ∈ (run Model.spelling streamConfig (listedRun 2)).done, ∃ shown, r.Reports shown ∧
      r.stopCause = some (.token 2) ∧ shown.Identifies (.token 2) := by
  have found : ∃ r ∈ (run Model.spelling streamConfig (listedRun 2)).done,
      r.finishReason = .stop ∧ r.isEmbedding = false ∧ r.stopCause = some (.token 2) := by
    decide +kernel
  obtain ⟨r, done, stop, generation, cause⟩ := found
  obtain ⟨other, shown, why, reports, identifies⟩ := run_stopReason _ _ _ done stop generation
  rw [cause] at why
  cases why
  exact ⟨r, done, shown, reports, cause, identifies.mpr ⟨by decide, by decide⟩⟩

/-- The second token spells `42`. -/
def numerals : Model :=
  { Model.spelling with tokenToPiece := fun token _ => if token = 2 then [0x34, 0x32] else [] }

def numeralRun : List Action :=
  [.submit [5] { stop := [[0x34, 0x32]] } {}, .step {}, .step {}, .step {}]

/-- The stop string `42` is reported as the token 42. -/
theorem run_stopReason_numeral :
    ∃ r ∈ (run numerals streamConfig numeralRun).done, r.finishReason = .stop ∧
      r.isEmbedding = false ∧ r.stopCause = some (.string [0x34, 0x32]) ∧ r.Reports (.token 42) ∧
      ¬ (StopReason.token 42).Identifies (.string [0x34, 0x32]) := by
  have found : ∃ r ∈ (run numerals streamConfig numeralRun).done, r.finishReason = .stop ∧
      r.isEmbedding = false ∧ r.stopCause = some (.string [0x34, 0x32]) ∧
      r.stopReason = [0x34, 0x32] := by
    decide +kernel
  obtain ⟨r, done, stop, generation, cause, reason⟩ := found
  have reports := ((run_invariant _ _ _).ended r done).reports (fun _ => Submitted.streams)
    (run_completed _ _ _ done (.inl stop))
  rw [reason] at reports
  refine ⟨r, done, stop, generation, cause, reports, ?_⟩
  intro identifies
  cases (identifies.token 42).mp rfl

end Engine

end Iian
