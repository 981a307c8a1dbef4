import Iian.StopStrings
import Iian.Verification

/- The text of a request as a function of its sampled tokens, while nothing has stopped it
and at the token that stops it. -/
namespace Iian

open List

variable {M : Model}

namespace Model

/-- What one token adds to the text and to the bytes held back behind it. With the other
special tokens an end-of-generation token is hidden. -/
def spellStep (M : Model) (params : SamplingParams) (state : Bytes × Bytes) (token : Token) :
    Bytes × Bytes :=
  if M.isEog token && params.skipSpecialTokens then state
  else
    let pushed := Detokenizer.push M params.skipSpecialTokens state.2 token
    (state.1 ++ pushed.1, pushed.2)

/-- The text of a token list and the bytes the detokenizer holds back behind it. -/
def spell (M : Model) (params : SamplingParams) (tokens : List Token) : Bytes × Bytes :=
  tokens.foldl (M.spellStep params) ([], [])

theorem spell_concat (params : SamplingParams) (tokens : List Token) (token : Token) :
    M.spell params (tokens ++ [token]) = M.spellStep params (M.spell params tokens) token := by
  rw [spell, foldl_append]
  rfl

theorem spellStep_grows (params : SamplingParams) (state : Bytes × Bytes) (token : Token) :
    state.1 <+: (M.spellStep params state token).1 := by
  unfold spellStep
  split
  · exact prefix_refl _
  · exact prefix_append _ _

theorem spell_grows (params : SamplingParams) {tokens longer : List Token}
    (grows : tokens <+: longer) : (M.spell params tokens).1 <+: (M.spell params longer).1 := by
  obtain ⟨more, rfl⟩ := grows
  induction more using List.reverseRecOn with
  | nil => simp
  | append_singleton more token ih =>
    rw [← append_assoc, spell_concat]
    exact ih.trans (spellStep_grows _ _ _)

end Model

variable {gen next : Gen M} {token : Token} {maxModelLen : Nat} {stop : Option FinishReason}
    {sampled : SampledToken M.Logit}

namespace Gen

/-- The sampled tokens. -/
def outputs (gen : Gen M) : List Token := gen.tokens.drop gen.nPrompt

theorem outputs_length (gen : Gen M) : gen.outputs.length = gen.nOutput := length_drop

/-- The stop strings have been searched for. -/
def Searched (gen : Gen M) : Prop :=
  gen.params.stop ≠ [] ∧ gen.params.minTokens ≤ (gen.nOutput : Int) ∧ gen.nOutput ≠ 0

/-- A request that nothing has stopped. -/
structure Going (gen : Gen M) : Prop where
  prompt : gen.nPrompt ≤ gen.tokens.length
  spelled : (gen.text, gen.pending) = M.spell gen.params gen.outputs
  unsearched : ¬ gen.Searched → gen.stopCheckOffset = 0
  searched : gen.Searched → gen.stopCheckOffset = gen.text.length
  clean : gen.Searched → Clean gen.params.stop gen.text

theorem Going.text (going : gen.Going) :
    gen.text = (M.spell gen.params gen.outputs).1 := congrArg Prod.fst going.spelled

theorem Going.pending (going : gen.Going) :
    gen.pending = (M.spell gen.params gen.outputs).2 := congrArg Prod.snd going.spelled

/-- A request without a sampled token. -/
theorem Going.start {gen : Gen M} (prompt : gen.nPrompt = gen.tokens.length)
    (text : gen.text = []) (pending : gen.pending = []) (offset : gen.stopCheckOffset = 0) :
    gen.Going := by
  have none : gen.nOutput = 0 := by
    rw [nOutput, prompt, Nat.sub_self]
  have outputs : gen.outputs = [] := by
    rw [Gen.outputs, prompt, drop_length]
  refine ⟨Nat.le_of_eq prompt, ?_, fun _ => offset, ?_, ?_⟩
  · rw [text, pending, outputs]
    rfl
  · exact fun searched => (searched.2.2 none).elim
  · exact fun searched => (searched.2.2 none).elim

/-- The request with one more token, before the stop strings are searched. -/
def append (gen : Gen M) (token : Token) : Gen M :=
  let spelled := M.spellStep gen.params (gen.text, gen.pending) token
  { gen with tokens := gen.tokens ++ [token], text := spelled.1, pending := spelled.2 }

theorem Going.outputs_append (going : gen.Going) (token : Token) :
    (gen.append token).outputs = gen.outputs ++ [token] :=
  drop_append_of_le_length going.prompt

theorem Going.spelled_append (going : gen.Going) (token : Token) :
    ((gen.append token).text, (gen.append token).pending) =
      M.spell gen.params (gen.append token).outputs := by
  rw [going.outputs_append, Model.spell_concat, ← going.spelled]
  rfl

theorem Going.nOutput_append (going : gen.Going) (token : Token) :
    (gen.append token).nOutput = gen.nOutput + 1 := by
  have length := going.prompt
  simp only [nOutput, append, length_append, length_singleton]
  omega

theorem text_append (gen : Gen M) (token : Token) : gen.text <+: (gen.append token).text :=
  Model.spellStep_grows gen.params (gen.text, gen.pending) token

/-- One of the token-level checks stops the request. -/
def Halts (gen : Gen M) (token : Token) : Prop :=
  (M.isEog token && !gen.params.ignoreEos) = true ∨ gen.params.stopTokenIds.contains token = true

theorem detokenizeStep_eq (gen : Gen M) (token : Token) (stopped : Bool) :
    gen.detokenizeStep token stopped = { gen with
      text := (M.spellStep gen.params (gen.text, gen.pending) token).1
      pending := (M.spellStep gen.params (gen.text, gen.pending) token).2 } := by
  have once : gen.detokenizeStep token stopped =
      if M.isEog token && gen.params.skipSpecialTokens then gen else gen.detokenize token := by
    unfold detokenizeStep
    generalize gen.detokenize token = pushed
    cases M.isEog token <;> cases gen.params.skipSpecialTokens <;> cases stopped <;>
      cases gen.params.includeStopStrInOutput <;> rfl
  rw [once, Model.spellStep]
  split <;> rfl

/-- The turn of a token: an end-of-generation token stops the request, or a listed one, and
the stop strings are searched only behind any other. -/
theorem pushToken_eq (gen : Gen M) (maxModelLen : Nat) (token : Token) :
    gen.pushToken maxModelLen token =
      if (M.isEog token && !gen.params.ignoreEos) = true then (gen.append token, some .stop)
      else if gen.params.stopTokenIds.contains token = true then
        ({ gen.append token with stopReason := tokenText token }, some .stop)
      else
        match (gen.append token).checkStrings with
        | (next, some why) => (next, some why)
        | (next, none) => (next, checkLength maxModelLen next) := by
  unfold pushToken checkToken
  dsimp only
  by_cases eog : (M.isEog token && !gen.params.ignoreEos) = true
  · rw [if_pos eog, if_pos eog]
    dsimp only
    rw [detokenizeStep_eq]
    rfl
  · rw [if_neg eog, if_neg eog]
    by_cases listed : gen.params.stopTokenIds.contains token = true
    · rw [if_pos listed, if_pos listed]
      dsimp only
      rw [detokenizeStep_eq]
      rfl
    · rw [if_neg listed, if_neg listed]
      dsimp only
      rw [detokenizeStep_eq]
      rfl

theorem pushToken_halts (halts : gen.Halts token) (maxModelLen : Nat) : ∃ reason,
      gen.pushToken maxModelLen token =
        ({ gen.append token with stopReason := reason }, some .stop) := by
  rw [pushToken_eq]
  split
  · exact ⟨gen.stopReason, rfl⟩
  · rename_i other
    rw [if_pos (halts.resolve_left other)]
    exact ⟨_, rfl⟩

theorem pushToken_passes (passes : ¬ gen.Halts token) (maxModelLen : Nat) :
    gen.pushToken maxModelLen token =
      match (gen.append token).checkStrings with
      | (next, some why) => (next, some why)
      | (next, none) => (next, checkLength maxModelLen next) := by
  rw [pushToken_eq, if_neg (fun eog => passes (.inl eog)),
    if_neg (fun listed => passes (.inr listed))]

/-- A search from the offset finds what a search of the whole text finds. -/
theorem Going.endsFirst (going : gen.Going) (token : Token) :
    EndsFirst (gen.append token).text 0 gen.params.stop
      (bestStop (gen.append token).text gen.stopCheckOffset gen.params.stop) := by
  have ends := bestStop_endsFirst (gen.append token).text gen.stopCheckOffset gen.params.stop
  by_cases before : gen.Searched
  · obtain ⟨more, same⟩ := gen.text_append token
    rw [← same] at ends ⊢
    rw [going.searched before] at ends ⊢
    exact ends.whole (going.clean before)
  · rw [going.unsearched before] at ends ⊢
    exact ends

theorem Going.checkStrings_none (going : gen.Going)
    (checked : (gen.append token).checkStrings = (next, none)) : next.Going := by
  have count := going.nOutput_append token
  have length := going.prompt
  have prompt : (gen.append token).nPrompt ≤ (gen.append token).tokens.length := by
    change gen.nPrompt ≤ (gen.tokens ++ [token]).length
    rw [length_append]
    omega
  unfold checkStrings at checked
  split at checked
  · rename_i opened
    simp only [Bool.and_eq_true, Bool.not_eq_true', isEmpty_eq_false_iff,
      decide_eq_true_eq] at opened
    split at checked
    · cases checked
    rename_i missed
    have ends : EndsFirst (gen.append token).text 0 gen.params.stop none := by
      rw [← show bestStop (gen.append token).text gen.stopCheckOffset gen.params.stop = none
        from missed]
      exact going.endsFirst token
    have now : (gen.append token).Searched := ⟨opened.1, opened.2, by omega⟩
    cases checked
    exact ⟨prompt, going.spelled_append token, fun unsearched => (unsearched now).elim,
      fun _ => rfl, fun _ => ends.clean⟩
  · rename_i closed
    have idle : ¬ (gen.append token).Searched := by
      intro searched
      apply closed
      simp only [Bool.and_eq_true, Bool.not_eq_true', isEmpty_eq_false_iff, decide_eq_true_eq]
      exact ⟨searched.1, searched.2.1⟩
    cases checked
    refine ⟨prompt, going.spelled_append token, fun _ => ?_, fun searched => False.elim
      (idle searched), fun searched => (idle searched).elim⟩
    apply going.unsearched
    intro searched
    have enough := searched.2.1
    refine idle ⟨searched.1, ?_, by omega⟩
    change gen.params.minTokens ≤ _
    omega

/-- How a token stops a request: by itself, by a stop string it completes, or by being the
last one allowed. -/
inductive Closes (gen : Gen M) (token : Token) : Gen M → FinishReason → Prop
  | token {last : Gen M} (halts : gen.Halts token) (text : last.text = (gen.append token).text)
      (pending : last.pending = (gen.append token).pending) : Closes gen token last .stop
  | string {last : Gen M} {bestEnd bestStart : Nat} {best : Bytes}
      (searched : (gen.append token).Searched)
      (found : bestStop (gen.append token).text gen.stopCheckOffset gen.params.stop =
        some (bestEnd, bestStart, best))
      (text : last.text = (gen.append token).text.take
        (if gen.params.includeStopStrInOutput then bestEnd else bestStart))
      (pending : last.pending = []) (reason : last.stopReason = best) :
      Closes gen token last .stop
  | length {last : Gen M} (going : last.Going) : Closes gen token last .length

theorem Going.checkStrings_some (going : gen.Going) {why : FinishReason}
    (checked : (gen.append token).checkStrings = (next, some why)) : gen.Closes token next why := by
  have count := going.nOutput_append token
  unfold checkStrings at checked
  split at checked
  · rename_i opened
    simp only [Bool.and_eq_true, Bool.not_eq_true', isEmpty_eq_false_iff,
      decide_eq_true_eq] at opened
    split at checked
    · rename_i found
      cases checked
      exact .string ⟨opened.1, opened.2, by omega⟩ found rfl rfl rfl
    · cases checked
  · cases checked

theorem checkLength_why {why : FinishReason} (ended : gen.checkLength maxModelLen = some why) :
    why = .length := by
  unfold checkLength at ended
  split at ended
  · cases ended
    rfl
  split at ended
  · cases ended
    rfl
  · cases ended

theorem Going.pushToken (going : gen.Going)
    (pushed : gen.pushToken maxModelLen token = (next, stop)) :
    (stop = none → next.Going) ∧ ∀ why, stop = some why → gen.Closes token next why := by
  by_cases halts : gen.Halts token
  · obtain ⟨reason, same⟩ := pushToken_halts halts maxModelLen
    rw [same] at pushed
    cases pushed
    refine ⟨fun none => (by cases none), ?_⟩
    intro why ended
    cases ended
    exact .token halts rfl rfl
  · rw [pushToken_passes halts] at pushed
    split at pushed
    · rename_i why checked
      cases pushed
      refine ⟨fun none => (by cases none), ?_⟩
      intro why ended
      cases ended
      exact going.checkStrings_some checked
    · rename_i checked
      have goes := going.checkStrings_none checked
      cases pushed
      refine ⟨fun _ => goes, ?_⟩
      intro why ended
      rw [checkLength_why ended]
      exact .length goes

variable (going : gen.Going) {row : List M.Logit}

include going

theorem Going.outputs_step (stepped : gen.step maxModelLen row = .ok (sampled, next, stop)) :
    next.outputs = gen.outputs ++ [sampled.token] := by
  rw [Gen.outputs, (step_ok stepped).tokens, (step_ok stepped).nPrompt]
  exact drop_append_of_le_length going.prompt

theorem Going.sampleToken (sampling : gen.sampleToken row = .ok (sampled, next)) : next.Going := by
  rw [(sampleToken_fields sampling).1]
  exact ⟨going.prompt, going.spelled, going.unsearched, going.searched, going.clean⟩

theorem Going.step (stepped : gen.step maxModelLen row = .ok (sampled, next, stop)) :
    (stop = none → next.Going) ∧ ∀ why, stop = some why → gen.Closes sampled.token next why := by
  obtain ⟨middle, sampling, pushed⟩ := step_pushes stepped
  obtain ⟨goes, closes⟩ := (going.sampleToken sampling).pushToken pushed
  refine ⟨goes, ?_⟩
  intro why ended
  have closed := closes why ended
  rw [(sampleToken_fields sampling).1] at closed
  cases closed with
  | token halts text pending => exact .token halts text pending
  | string searched found text pending reason => exact .string searched found text pending reason
  | length going => exact .length going

end Gen

namespace Request

theorem verifyRows_going {maxModelLen : Nat} {rows : List (List M.Logit)} {drafts : List Token}
    {r : Request M} (going : r.Going) :
    ((verifyRows maxModelLen rows drafts r).2.2 = .next →
      (verifyRows maxModelLen rows drafts r).1.Going ∧
      r.outputs <+: (verifyRows maxModelLen rows drafts r).1.outputs) ∧
    ∀ why, (verifyRows maxModelLen rows drafts r).2.2 = .stop why →
      ∃ (gen : Gen M) (token : Token), gen.Going ∧ gen.params = r.params ∧
        r.outputs <+: gen.outputs ∧
        (verifyRows maxModelLen rows drafts r).1.outputs = gen.outputs ++ [token] ∧
        gen.Closes token (verifyRows maxModelLen rows drafts r).1.toGen why := by
  obtain ⟨goes, stops⟩ := @verifyRows_rule M maxModelLen
    (fun gen => gen.Going ∧ gen.params = r.params ∧ r.outputs <+: gen.outputs)
    (by
      intro gen next row sampled before stepped
      refine ⟨(before.1.step stepped).1 rfl, (Gen.step_ok stepped).params.trans before.2.1, ?_⟩
      rw [before.1.outputs_step stepped]
      exact before.2.2.trans (prefix_append _ _))
    rows drafts r ⟨going, rfl, prefix_refl _⟩
  refine ⟨fun ended => ⟨(goes ended).1, (goes ended).2.2⟩, ?_⟩
  intro why ended
  obtain ⟨gen, row, sampled, ⟨ready, params, longer⟩, stepped⟩ := stops why ended
  exact ⟨gen, sampled.token, ready, params, longer, ready.outputs_step stepped,
    (ready.step stepped).2 why rfl⟩

/-- The row loop on a request that goes on: how its text grows and how it ends. -/
theorem verify_going {nSpec : Nat} {rows : List (List M.Logit)} {r next : Request M}
    {ended : RowsEnd} (going : r.Going) (verified : r.verify maxModelLen rows nSpec = (next, ended)) :
    (ended = .next → next.Going ∧ r.outputs <+: next.outputs) ∧
    ∀ why, ended = .stop why →
      ∃ (gen : Gen M) (token : Token), gen.Going ∧ gen.params = r.params ∧
        r.outputs <+: gen.outputs ∧ next.outputs = gen.outputs ++ [token] ∧
        gen.Closes token next.toGen why := by
  have facts := @verifyRows_going M maxModelLen rows (r.specTokens.take nSpec) r going
  unfold verify at verified
  generalize verifyRows maxModelLen rows (r.specTokens.take nSpec) r = result at facts verified
  obtain ⟨last, nAccepted, final⟩ := result
  cases final <;> cases verified <;> exact facts

end Request

end Iian
