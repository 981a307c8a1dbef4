import Iian.Request

/- Verifying drafts against sampling one token at a time. -/
namespace Iian

open List

variable {M : Model}

variable {F : List Token → List M.Logit} {maxModelLen fuel : Nat} {gen next : Gen M}
    {sampled : SampledToken M.Logit} {r : Request M}

namespace Gen

/-- The decoder that samples the row of the whole token list, one token a turn, for at most
`fuel` turns. -/
def decode (F : List Token → List M.Logit) (maxModelLen : Nat) : Nat → Gen M → Gen M × RowsEnd
  | 0, gen => (gen, .next)
  | fuel + 1, gen =>
    match gen.step maxModelLen (F gen.tokens) with
    | .threw message => (gen, .threw message)
    | .aborted => (gen, .aborted)
    | .ok (_, gen, some why) => (gen, .stop why)
    | .ok (_, gen, none) => decode F maxModelLen fuel gen

theorem decode_next (stepped : gen.step maxModelLen (F gen.tokens) = .ok (sampled, next, none))
    (fuel : Nat) : gen.decode F maxModelLen (fuel + 1) = next.decode F maxModelLen fuel := by
  rw [decode, stepped]

theorem decode_stop {why : FinishReason}
    (stepped : gen.step maxModelLen (F gen.tokens) = .ok (sampled, next, some why)) (fuel : Nat) :
    gen.decode F maxModelLen (fuel + 1) = (next, .stop why) := by
  rw [decode, stepped]

/-- The turns after which a request has left the context at the latest. -/
def turns (maxModelLen : Nat) (gen : Gen M) : Nat := maxModelLen - gen.nTokens + 1

theorem turns_le (stepped : gen.step maxModelLen (F gen.tokens) = .ok (sampled, next, none))
    (enough : gen.turns maxModelLen ≤ fuel + 1) : next.turns maxModelLen ≤ fuel := by
  have facts := step_ok stepped
  have short := facts.short rfl
  have grown : next.nTokens = gen.nTokens + 1 := by
    rw [nTokens, facts.tokens, length_append, length_singleton, nTokens]
  unfold turns at enough ⊢
  omega

section

variable (F : List Token → List M.Logit) (maxModelLen : Nat)

theorem decode_ends (enough : gen.turns maxModelLen ≤ fuel) :
    (gen.decode F maxModelLen fuel).2 ≠ .next := by
  induction fuel generalizing gen with
  | zero => simp [turns] at enough
  | succ fuel ih =>
    unfold decode
    split
    · simp
    · simp
    · simp
    rename_i stepped
    exact ih (turns_le stepped enough)

/-- Further turns do not change a result. -/
theorem decode_add (ended : (gen.decode F maxModelLen fuel).2 ≠ .next) (more : Nat) :
    gen.decode F maxModelLen (fuel + more) = gen.decode F maxModelLen fuel := by
  induction fuel generalizing gen with
  | zero => exact (ended rfl).elim
  | succ fuel ih =>
    rw [show fuel + 1 + more = fuel + more + 1 by omega]
    unfold decode at ended ⊢
    split
    · rfl
    · rfl
    · rfl
    · rename_i stepped
      rw [stepped] at ended
      exact ih ended

theorem decode_eq {left right : Nat} (leftEnded : (gen.decode F maxModelLen left).2 ≠ .next)
    (rightEnded : (gen.decode F maxModelLen right).2 ≠ .next) :
    gen.decode F maxModelLen left = gen.decode F maxModelLen right := by
  rcases Nat.le_total left right with less | less
  · rw [← decode_add F maxModelLen leftEnded (right - left), Nat.add_sub_cancel' less]
  · rw [← decode_add F maxModelLen rightEnded (left - right), Nat.add_sub_cancel' less]

/-- Without a grammar the decoder always ends with a stop rule. -/
theorem decode_stops (free : gen.grammar = none) (enough : gen.turns maxModelLen ≤ fuel) :
    ∃ why, (gen.decode F maxModelLen fuel).2 = .stop why := by
  induction fuel generalizing gen with
  | zero => simp [turns] at enough
  | succ fuel ih =>
    obtain ⟨sampled, next, stop, stepped⟩ := step_free free maxModelLen (F gen.tokens)
    unfold decode
    rw [stepped]
    cases stop with
    | some why => exact ⟨why, rfl⟩
    | none => exact ih ((step_ok stepped).free free) (turns_le stepped enough)

end

end Gen

namespace Request

/-- The output rows of a step that feeds drafts: one for the last token of the request and
one for each draft. -/
def draftRows (F : List Token → List M.Logit) (tokens drafts : List Token) :
    List (List M.Logit) :=
  (List.range (drafts.length + 1)).map (fun k => F (tokens ++ drafts.take k))

theorem draftRows_nil (F : List Token → List M.Logit) (tokens : List Token) :
    draftRows F tokens [] = [F tokens] := by
  simp [draftRows]

theorem draftRows_cons (F : List Token → List M.Logit) (tokens : List Token) (draft : Token)
    (drafts : List Token) :
    draftRows F tokens (draft :: drafts) = F tokens :: draftRows F (tokens ++ [draft]) drafts := by
  unfold draftRows
  rw [length_cons, range_succ_eq_map, map_cons, map_map]
  simp

@[simp] theorem pushRow_toGen (r : Request M) (sampled : SampledToken M.Logit) (gen : Gen M) :
    (r.pushRow sampled gen).toGen = gen := rfl

/-- What the row loop does over the rows of a list of drafts: it takes one decoder turn
for every accepted draft and one more. -/
structure Simulates (F : List Token → List M.Logit) (maxModelLen : Nat) (r : Request M)
    (drafts : List Token) (result : Request M × Nat × RowsEnd) : Prop where
  accepted : result.2.1 ≤ drafts.length
  computed : result.1.numComputedTokens = r.numComputedTokens
  length : result.2.2 = .next → result.1.nTokens = r.nTokens + result.2.1 + 1
  short : result.2.2 = .next → result.1.nTokens < maxModelLen
  next : result.2.2 = .next → ∀ fuel,
    r.decode F maxModelLen (result.2.1 + 1 + fuel) = result.1.decode F maxModelLen fuel
  ended : result.2.2 ≠ .next → ∀ fuel,
    r.decode F maxModelLen (drafts.length + 1 + fuel) = (result.1.toGen, result.2.2)

/-- A row that ends the request. -/
theorem simulates_ended {final : Request M} {accepted : Nat} {verdict : RowsEnd}
    {drafts : List Token} (few : accepted ≤ drafts.length)
    (computed : final.numComputedTokens = r.numComputedTokens) (last : verdict ≠ .next)
    (decoded : ∀ fuel, r.decode F maxModelLen (fuel + 1) = (final.toGen, verdict)) :
    Simulates F maxModelLen r drafts (final, accepted, verdict) := by
  refine ⟨few, computed, (absurd · last), (absurd · last), (absurd · last), ?_⟩
  intro _ fuel
  rw [Nat.add_right_comm]
  exact decoded _

/-- The last row sampled in a step: the bonus row, or one whose sample was not drafted. -/
theorem simulates_last {stop : Option FinishReason}
    (stepped : r.step maxModelLen (F r.tokens) = .ok (sampled, next, stop)) (drafts : List Token) :
    Simulates F maxModelLen r drafts (r.pushRow sampled next, 0, .ofStop stop) := by
  have facts := Gen.step_ok stepped
  cases stop with
  | some why =>
    exact simulates_ended (Nat.zero_le _) rfl (by simp [RowsEnd.ofStop]) (Gen.decode_stop stepped)
  | none =>
    refine ⟨Nat.zero_le _, rfl, ?_, fun _ => facts.short rfl, ?_, by simp [RowsEnd.ofStop]⟩
    · intro _
      change next.tokens.length = r.tokens.length + 0 + 1
      rw [facts.tokens, length_append, length_singleton]
    · intro _ fuel
      rw [show 0 + 1 + fuel = fuel + 1 by omega]
      exact Gen.decode_next stepped fuel

variable (F maxModelLen)

theorem verifyRows_simulates (drafts : List Token) (r : Request M) :
    Simulates F maxModelLen r drafts
      (verifyRows maxModelLen (draftRows F r.tokens drafts) drafts r) := by
  induction drafts generalizing r with
  | nil =>
    rw [draftRows_nil, verifyRows]
    split
    · rename_i message stepped
      refine simulates_ended (Nat.zero_le _) rfl (by simp) fun fuel => ?_
      rw [Gen.decode, stepped]
    · rename_i stepped
      refine simulates_ended (Nat.zero_le _) rfl (by simp) fun fuel => ?_
      rw [Gen.decode, stepped]
    · rename_i stepped
      exact simulates_last stepped []
  | cons draft drafts ih =>
    rw [draftRows_cons, verifyRows]
    split
    · rename_i message stepped
      refine simulates_ended (Nat.zero_le _) rfl (by simp) fun fuel => ?_
      rw [Gen.decode, stepped]
    · rename_i stepped
      refine simulates_ended (Nat.zero_le _) rfl (by simp) fun fuel => ?_
      rw [Gen.decode, stepped]
    · rename_i sampled next stop stepped
      dsimp only
      by_cases same : sampled.token = draft
      · rw [if_pos same]
        cases stop with
        | some why =>
          exact simulates_ended (by simp) rfl (by simp [RowsEnd.ofStop]) (Gen.decode_stop stepped)
        | none =>
          -- the accepted draft is the sampled token, so the next row is the right one
          have tokens := (Gen.step_ok stepped).tokens
          rw [same] at tokens
          have rest := ih (r.pushRow sampled next)
          rw [pushRow_toGen, tokens] at rest
          simp only [Option.isSome_none, Bool.false_eq_true, ↓reduceIte]
          generalize verifyRows maxModelLen _ drafts (r.pushRow sampled next) = result at rest
          obtain ⟨final, nAccepted, verdict⟩ := result
          obtain ⟨accepted, computed, length, short, continues, ended⟩ := rest
          dsimp only at accepted computed length short continues ended ⊢
          refine ⟨?_, computed, ?_, short, ?_, ?_⟩
          · simpa using accepted
          · intro going
            have count := length going
            change final.nTokens = next.tokens.length + nAccepted + 1 at count
            rw [tokens, length_append, length_singleton] at count
            change final.nTokens = r.tokens.length + (nAccepted + 1) + 1
            omega
          · intro going fuel
            rw [← continues going, pushRow_toGen, ← Gen.decode_next stepped]
            congr 1
            show nAccepted + 1 + 1 + fuel = nAccepted + 1 + fuel + 1
            omega
          · intro stopped fuel
            rw [← ended stopped fuel, pushRow_toGen, ← Gen.decode_next stepped]
            congr 1
            rw [length_cons]
            omega
      · rw [if_neg same]
        exact simulates_last stepped _

/-- A step that does not end the request advances the decoder by the accepted drafts and one
token more; one that does has the decoder's result. -/
theorem verify_decode {nSpec : Nat}
    {next : Request M} {verdict : RowsEnd} (drafts : nSpec ≤ r.specTokens.length)
    (counted : r.numComputedTokens = r.nTokens + nSpec)
    (verified : r.verify maxModelLen (draftRows F r.tokens (r.specTokens.take nSpec)) nSpec =
      (next, verdict)) :
    (verdict = .next → ∃ turns, next.nTokens = r.nTokens + turns + 1 ∧ next.nTokens < maxModelLen ∧
      next.numComputedTokens + 1 = next.nTokens ∧
      ∀ fuel, r.decode F maxModelLen (turns + 1 + fuel) = next.decode F maxModelLen fuel) ∧
    (verdict ≠ .next → ∀ fuel, r.decode F maxModelLen (nSpec + 1 + fuel) = (next.toGen, verdict)) := by
  have simulated := verifyRows_simulates F maxModelLen (r.specTokens.take nSpec) r
  unfold verify at verified
  generalize verifyRows maxModelLen _ (r.specTokens.take nSpec) r = result at simulated verified
  obtain ⟨final, nAccepted, ended⟩ := result
  obtain ⟨accepted, computed, length, short, continues, stops⟩ := simulated
  dsimp only at accepted computed length short continues stops
  rw [length_take, Nat.min_eq_left drafts] at accepted stops
  cases ended with
  | threw message =>
    cases verified
    exact ⟨by simp, fun stopped fuel => stops stopped fuel⟩
  | aborted =>
    cases verified
    exact ⟨by simp, fun stopped fuel => stops stopped fuel⟩
  | stop why =>
    cases verified
    exact ⟨by simp, fun stopped fuel => stops stopped fuel⟩
  | next =>
    cases verified
    refine ⟨?_, by simp⟩
    intro _
    refine ⟨nAccepted, length rfl, short rfl, ?_, continues rfl⟩
    have count : final.nTokens = r.nTokens + nAccepted + 1 := length rfl
    dsimp only
    rw [computed]
    change _ = final.nTokens
    split <;> omega

/-- A verified step: `update_after_step` has counted the request's tokens and the drafts as
computed when the rows are sampled. -/
def specStep (F : List Token → List M.Logit) (maxModelLen : Nat) (drafts : List Token)
    (r : Request M) : Request M × RowsEnd :=
  verify maxModelLen (draftRows F r.tokens drafts) drafts.length
    { r with specTokens := drafts, numComputedTokens := r.nTokens + drafts.length }

/-- A run of at most `fuel` verified steps; step number `index` is given `drafts index`. -/
def specRun (F : List Token → List M.Logit) (maxModelLen : Nat) (drafts : Nat → List Token) :
    Nat → Nat → Request M → Request M × RowsEnd
  | 0, _, r => (r, .next)
  | fuel + 1, index, r =>
    match specStep F maxModelLen (drafts index) r with
    | (r, .next) => specRun F maxModelLen drafts fuel (index + 1) r
    | result => result

theorem specStep_decode (drafts : List Token)
    {next : Request M} {verdict : RowsEnd}
    (stepped : specStep F maxModelLen drafts r = (next, verdict)) :
    (verdict = .next → ∃ turns, next.nTokens = r.nTokens + turns + 1 ∧ next.nTokens < maxModelLen ∧
      next.numComputedTokens + 1 = next.nTokens ∧
      ∀ fuel, r.decode F maxModelLen (turns + 1 + fuel) = next.decode F maxModelLen fuel) ∧
    (verdict ≠ .next → ∀ fuel,
      r.decode F maxModelLen (drafts.length + 1 + fuel) = (next.toGen, verdict)) := by
  let fed : Request M :=
    { r with specTokens := drafts, numComputedTokens := r.nTokens + drafts.length }
  apply verify_decode F maxModelLen (Nat.le_refl _) (show fed.numComputedTokens = _ from rfl)
  rw [take_length]
  exact stepped

/-- Whatever is drafted, a run of verified steps ends as the decoder does. -/
theorem specRun_decode (drafts : Nat → List Token) (index : Nat)
    (enough : r.turns maxModelLen ≤ fuel) :
    ((specRun F maxModelLen drafts fuel index r).1.toGen,
      (specRun F maxModelLen drafts fuel index r).2) =
        r.decode F maxModelLen (r.turns maxModelLen) := by
  induction fuel generalizing index r with
  | zero => simp [Gen.turns] at enough
  | succ fuel ih =>
    have decided := Gen.decode_ends F maxModelLen (Nat.le_refl (r.turns maxModelLen))
    rw [specRun]
    generalize stepped : specStep F maxModelLen (drafts index) r = result
    obtain ⟨next, ended⟩ := result
    obtain ⟨continues, ends⟩ := specStep_decode F maxModelLen (drafts index) stepped
    by_cases going : ended = .next
    · subst going
      obtain ⟨turns, length, short, _, simulated⟩ := continues rfl
      rw [ih (index + 1) (by unfold Gen.turns at enough ⊢; omega), ← simulated]
      apply Gen.decode_eq F maxModelLen _ decided
      rw [simulated]
      exact Gen.decode_ends F maxModelLen (Nat.le_refl _)
    · have result := ends going 0
      have last : r.decode F maxModelLen (r.turns maxModelLen) = (next.toGen, ended) := by
        rw [← result]
        apply Gen.decode_eq F maxModelLen decided
        rw [result]
        exact going
      rw [last]
      cases ended with
      | next => exact (going rfl).elim
      | stop why => rfl
      | threw message => rfl
      | aborted => rfl

/-- The results of two runs agree in everything a client or a later run can see. -/
structure SameResult (left right : Request M × RowsEnd) : Prop where
  tokens : left.1.tokens = right.1.tokens
  finish : left.2 = right.2
  text : left.1.flush.text = right.1.flush.text
  sampler : left.1.sampler = right.1.sampler

/-- Speculative decoding is exact: for every logits function and every choice of drafts the
run agrees with the one that drafts nothing, a request without a grammar is finished by a
stop rule, and a verified step of a request that goes on leaves one token to compute. -/
theorem specRun_exact (F : List Token → List M.Logit) (maxModelLen : Nat)
    (drafts : Nat → List Token) (r : Request M) :
    SameResult (specRun F maxModelLen drafts (r.turns maxModelLen) 0 r)
      (specRun F maxModelLen (fun _ => []) (r.turns maxModelLen) 0 r) ∧
    (r.grammar = none → ∃ why,
      (specRun F maxModelLen drafts (r.turns maxModelLen) 0 r).2 = .stop why) ∧
    ∀ (step : List Token) (s : Request M), (specStep F maxModelLen step s).2 = .next →
      (specStep F maxModelLen step s).1.numComputedTokens =
        (specStep F maxModelLen step s).1.nTokens - 1 := by
  have spec := specRun_decode F maxModelLen drafts 0 (Nat.le_refl (r.turns maxModelLen))
  have plain := specRun_decode F maxModelLen (fun _ => []) 0 (Nat.le_refl (r.turns maxModelLen))
  obtain ⟨gen, finish⟩ := Prod.ext_iff.mp (spec.trans plain.symm)
  dsimp only at gen finish
  refine ⟨⟨?_, finish, ?_, ?_⟩, ?_, ?_⟩
  · rw [gen]
  · rw [gen]
  · rw [gen]
  · intro free
    obtain ⟨why, stops⟩ := Gen.decode_stops F maxModelLen free (Nat.le_refl _)
    rw [← spec] at stops
    exact ⟨why, stops⟩
  · intro step s going
    generalize stepped : specStep F maxModelLen step s = result at going ⊢
    obtain ⟨next, verdict⟩ := result
    obtain ⟨_, _, _, computed, _⟩ := (specStep_decode F maxModelLen step stepped).1 going
    exact Nat.eq_sub_of_add_eq computed

end Request

end Iian
