import Iian.Request

/- What the row loop does to a request, for any rows at all. -/
namespace Iian

open List

variable {M : Model}

variable {r : Request M} {maxModelLen nSpec : Nat} {rows : List (List M.Logit)}

namespace Request

/-- Drafts are proposed only for generation requests without a grammar. -/
def Draftable (r : Request M) : Prop :=
  r.specTokens ≠ [] → r.isEmbedding = false ∧ r.grammar = none

/-- The row loop changes only the generation state and what is queued for delivery. -/
theorem verifyRows_fields (maxModelLen : Nat) (rows : List (List M.Logit)) (drafts : List Token)
    (r : Request M) :
    (verifyRows maxModelLen rows drafts r).1 = { r with
      toGen := (verifyRows maxModelLen rows drafts r).1.toGen
      pendingTokens := (verifyRows maxModelLen rows drafts r).1.pendingTokens
      pendingLogprobs := (verifyRows maxModelLen rows drafts r).1.pendingLogprobs } := by
  induction rows generalizing drafts r with
  | nil => rfl
  | cons row rows ih =>
    rw [verifyRows]
    split
    · rfl
    · rfl
    rename_i sampled gen stop stepped
    dsimp only
    cases drafts with
    | nil => rfl
    | cons draft drafts =>
      dsimp only
      split
      · split
        · rfl
        · rw [ih]
          rfl
      · rfl

/-- The accepted drafts are appended in order, and then at most the last sample. -/
structure Accepts (r : Request M) (drafts : List Token) (result : Request M × Nat × RowsEnd) :
    Prop where
  few : result.2.1 ≤ drafts.length
  tokens : r.tokens ++ drafts.take result.2.1 <+: result.1.tokens
  params : result.1.params = r.params
  nPrompt : result.1.nPrompt = r.nPrompt
  free : r.grammar = none → result.1.grammar = none

theorem accepts_none (r : Request M) (drafts : List Token) (ended : RowsEnd) :
    Accepts r drafts (r, 0, ended) :=
  ⟨Nat.zero_le _, by simp, rfl, rfl, fun free => free⟩

theorem verifyRows_accepts (maxModelLen : Nat) (rows : List (List M.Logit)) (drafts : List Token)
    (r : Request M) : Accepts r drafts (verifyRows maxModelLen rows drafts r) := by
  induction rows generalizing drafts r with
  | nil => exact accepts_none r drafts _
  | cons row rows ih =>
    rw [verifyRows]
    split
    · exact accepts_none r drafts _
    · exact accepts_none r drafts _
    rename_i sampled gen stop stepped
    have facts := Gen.step_ok stepped
    have last : ∀ ended, Accepts r drafts (r.pushRow sampled gen, 0, ended) := by
      intro ended
      refine ⟨Nat.zero_le _, ?_, facts.params, facts.nPrompt, facts.free⟩
      change r.tokens ++ drafts.take 0 <+: gen.tokens
      rw [facts.tokens, take_zero, append_nil]
      exact prefix_append _ _
    dsimp only
    cases drafts with
    | nil => exact last _
    | cons draft drafts =>
      dsimp only
      split
      · rename_i same
        split
        · refine ⟨by simp, ?_, facts.params, facts.nPrompt, facts.free⟩
          change r.tokens ++ [draft] <+: gen.tokens
          exact ⟨[], by rw [append_nil, facts.tokens, same]⟩
        · obtain ⟨few, tokens, params, nPrompt, free⟩ := ih drafts (r.pushRow sampled gen)
          refine ⟨by simpa using few, ?_, params.trans facts.params,
            nPrompt.trans facts.nPrompt, fun absent => free (facts.free absent)⟩
          change gen.tokens ++ _ <+: _ at tokens
          rw [facts.tokens, same, append_assoc] at tokens
          exact tokens
      · exact last _

/-- A rule for the row loop: a property that every row keeps unless it stops the request
holds behind the loop, or it held before the row that stopped the request. -/
theorem verifyRows_rule {maxModelLen : Nat} {holds : Gen M → Prop}
    (keeps : ∀ {gen next : Gen M} {row : List M.Logit} {sampled : SampledToken M.Logit},
      holds gen → gen.step maxModelLen row = .ok (sampled, next, none) → holds next)
    {rows : List (List M.Logit)} {drafts : List Token} {r : Request M} (start : holds r.toGen) :
    ((verifyRows maxModelLen rows drafts r).2.2 = .next →
      holds (verifyRows maxModelLen rows drafts r).1.toGen) ∧
    ∀ why, (verifyRows maxModelLen rows drafts r).2.2 = .stop why → ∃ gen row sampled,
      holds gen ∧ gen.step maxModelLen row =
        .ok (sampled, (verifyRows maxModelLen rows drafts r).1.toGen, some why) := by
  induction rows generalizing drafts r with
  | nil => exact ⟨fun _ => start, fun _ ended => (by cases ended)⟩
  | cons row rows ih =>
    rw [verifyRows]
    split
    · exact ⟨fun ended => (by cases ended), fun _ ended => (by cases ended)⟩
    · exact ⟨fun ended => (by cases ended), fun _ ended => (by cases ended)⟩
    rename_i sampled gen stop stepped
    -- the loop ends with this row
    have last : (RowsEnd.ofStop stop = .next → holds gen) ∧
        ∀ why, RowsEnd.ofStop stop = .stop why → ∃ before row sampled,
          holds before ∧ before.step maxModelLen row = .ok (sampled, gen, some why) := by
      cases stop with
      | none => exact ⟨fun _ => keeps start stepped, fun _ ended => (by cases ended)⟩
      | some reason =>
        refine ⟨fun ended => (by cases ended), ?_⟩
        intro why ended
        cases ended
        exact ⟨r.toGen, row, sampled, start, stepped⟩
    dsimp only
    cases drafts with
    | nil => exact last
    | cons draft drafts =>
      dsimp only
      split
      · split
        · exact last
        rename_i continues
        have none : stop = none := by simpa using continues
        rw [none] at stepped
        exact @ih drafts (r.pushRow sampled gen) (keeps start stepped)
      · exact last

/-- Without a grammar sampling cannot fail. -/
theorem verifyRows_free (maxModelLen : Nat) (rows : List (List M.Logit)) (drafts : List Token)
    (free : r.grammar = none) :
    ∃ stop, (verifyRows maxModelLen rows drafts r).2.2 = .ofStop stop := by
  induction rows generalizing drafts r with
  | nil => exact ⟨none, rfl⟩
  | cons row rows ih =>
    obtain ⟨sampled, gen, stop, stepped⟩ := Gen.step_free free maxModelLen row
    rw [verifyRows, stepped]
    dsimp only
    cases drafts with
    | nil => exact ⟨stop, rfl⟩
    | cons draft drafts =>
      dsimp only
      split
      · split
        · exact ⟨stop, rfl⟩
        · exact ih drafts ((Gen.step_ok stepped).free free)
      · exact ⟨stop, rfl⟩

/-- A request that goes on has got a token behind the accepted drafts, and room for more. -/
theorem verifyRows_next {drafts : List Token}
    (goes : (verifyRows maxModelLen rows drafts r).2.2 = .next) :
    (drafts.length < rows.length → (verifyRows maxModelLen rows drafts r).1.nTokens =
      r.nTokens + (verifyRows maxModelLen rows drafts r).2.1 + 1) ∧
    (r.nTokens < maxModelLen → (verifyRows maxModelLen rows drafts r).1.nTokens < maxModelLen) := by
  induction rows generalizing drafts r with
  | nil => exact ⟨fun enough => (Nat.not_lt_zero _ enough).elim, fun short => short⟩
  | cons row rows ih =>
    rw [verifyRows] at goes ⊢
    split at goes
    · cases goes
    · cases goes
    rename_i sampled gen stop stepped
    have facts := Gen.step_ok stepped
    have pushed : (r.pushRow sampled gen).nTokens = r.nTokens + 1 := by
      change gen.tokens.length = _
      rw [facts.tokens, length_append]
      rfl
    have last : RowsEnd.ofStop stop = .next → (r.pushRow sampled gen).nTokens < maxModelLen := by
      intro ended
      apply facts.short
      cases stop with
      | none => rfl
      | some why => cases ended
    dsimp only at goes ⊢
    cases drafts with
    | nil => exact ⟨fun _ => pushed, fun _ => last goes⟩
    | cons draft drafts =>
      dsimp only at goes ⊢
      split at goes
      · rename_i same
        rw [if_pos same]
        split at goes
        · rename_i stopped
          cases stop with
          | none => cases stopped
          | some why => cases goes
        · rename_i going
          rw [if_neg going]
          obtain ⟨count, short⟩ := ih goes
          generalize verifyRows maxModelLen rows drafts (r.pushRow sampled gen) = result
            at count short ⊢
          obtain ⟨final, nAccepted, ended⟩ := result
          dsimp only at count short ⊢
          refine ⟨?_, ?_⟩
          · intro enough
            rw [count (by simpa using enough), pushed]
            omega
          · intro _
            apply short
            apply facts.short
            simpa using going
      · rename_i different
        rw [if_neg different]
        exact ⟨fun _ => pushed, fun _ => last goes⟩

/-- What `verify` does to a request that was fed all its tokens and `nSpec` drafts. -/
structure Verified (r : Request M) (nSpec : Nat) (next : Request M) : Prop where
  fields : next = { r with
    toGen := next.toGen
    pendingTokens := next.pendingTokens
    pendingLogprobs := next.pendingLogprobs
    numComputedTokens := next.numComputedTokens
    specTokens := [] }
  params : next.params = r.params
  nPrompt : next.nPrompt = r.nPrompt
  free : r.grammar = none → next.grammar = none
  accepted : ∃ count ≤ nSpec, next.numComputedTokens = r.nTokens + count ∧
    r.tokens ++ r.specTokens.take count <+: next.tokens

theorem verify_ok {next : Request M} {stop : Option FinishReason}
    (drafts : nSpec ≤ r.specTokens.length) (computed : r.numComputedTokens = r.nTokens + nSpec)
    (verified : r.verify maxModelLen rows nSpec = (next, .ofStop stop)) :
    Verified r nSpec next := by
  have fields := verifyRows_fields maxModelLen rows (r.specTokens.take nSpec) r
  have accepts := verifyRows_accepts maxModelLen rows (r.specTokens.take nSpec) r
  unfold verify at verified
  generalize verifyRows maxModelLen rows (r.specTokens.take nSpec) r = result
    at fields accepts verified
  obtain ⟨last, nAccepted, ended⟩ := result
  obtain ⟨few, tokens, params, nPrompt, free⟩ := accepts
  dsimp only at fields few tokens params nPrompt free verified
  rw [length_take, Nat.min_eq_left drafts] at few
  rw [take_take, Nat.min_eq_left few] at tokens
  have same : last.numComputedTokens = r.numComputedTokens := by
    rw [fields]
  have shape : next = { last with
      numComputedTokens := if nSpec > 0 then last.numComputedTokens - (nSpec - nAccepted)
        else last.numComputedTokens
      specTokens := [] } := by
    cases ended with
    | next => exact (congrArg Prod.fst verified).symm
    | stop why => exact (congrArg Prod.fst verified).symm
    | threw message => cases stop <;> cases verified
    | aborted => cases stop <;> cases verified
  refine ⟨?_, ?_, ?_, ?_, nAccepted, few, ?_, ?_⟩
  · rw [shape, fields]
  · rw [shape]
    exact params
  · rw [shape]
    exact nPrompt
  · rw [shape]
    exact free
  · rw [shape]
    dsimp only
    rw [same, computed]
    split <;> omega
  · rw [shape]
    exact tokens

theorem verify_ended (maxModelLen nSpec : Nat) (rows : List (List M.Logit)) (r : Request M) :
    (r.verify maxModelLen rows nSpec).2 =
      (verifyRows maxModelLen rows (r.specTokens.take nSpec) r).2.2 := by
  unfold verify
  generalize verifyRows maxModelLen rows (r.specTokens.take nSpec) r = result
  obtain ⟨last, nAccepted, ended⟩ := result
  cases ended <;> rfl

/-- What every turn of the row loop keeps is kept by the loop. -/
theorem verifyRows_keeps {keeps : Request M → Prop} (one : ∀ {r : Request M} {row sampled gen stop},
      r.step maxModelLen row = .ok (sampled, gen, stop) → keeps r → keeps (r.pushRow sampled gen))
    (rows : List (List M.Logit)) (drafts : List Token) (kept : keeps r) :
    keeps (verifyRows maxModelLen rows drafts r).1 := by
  induction rows generalizing drafts r with
  | nil => exact kept
  | cons row rows ih =>
    rw [verifyRows]
    split
    · exact kept
    · exact kept
    rename_i sampled gen stop stepped
    have next := one stepped kept
    dsimp only
    cases drafts with
    | nil => exact next
    | cons draft drafts =>
      dsimp only
      split
      · split
        · exact next
        · exact ih drafts next
      · exact next

theorem verify_keeps {maxModelLen : Nat} {keeps : Request M → Prop}
    (one : ∀ {r : Request M} {row sampled gen stop},
      r.step maxModelLen row = .ok (sampled, gen, stop) → keeps r → keeps (r.pushRow sampled gen))
    (rollback : ∀ {r : Request M} (computed : Nat),
      keeps r → keeps { r with numComputedTokens := computed, specTokens := [] })
    (rows : List (List M.Logit)) (nSpec : Nat) {r : Request M} (kept : keeps r) :
    keeps (r.verify maxModelLen rows nSpec).1 := by
  have loop := verifyRows_keeps one rows (r.specTokens.take nSpec) kept
  unfold verify
  generalize verifyRows maxModelLen rows (r.specTokens.take nSpec) r = result at loop
  obtain ⟨last, nAccepted, ended⟩ := result
  cases ended with
  | next => exact rollback _ loop
  | stop why => exact rollback _ loop
  | threw message => exact loop
  | aborted => exact loop

/-- The row loop keeps the handle, and the rollback takes back at most the drafts. -/
theorem verify_place (maxModelLen nSpec : Nat) (rows : List (List M.Logit)) (r : Request M) :
    (r.verify maxModelLen rows nSpec).1.id = r.id ∧
      r.numComputedTokens ≤ (r.verify maxModelLen rows nSpec).1.numComputedTokens + nSpec := by
  have fields := verifyRows_fields maxModelLen rows (r.specTokens.take nSpec) r
  unfold verify
  generalize verifyRows maxModelLen rows (r.specTokens.take nSpec) r = result at fields
  obtain ⟨last, nAccepted, ended⟩ := result
  dsimp only at fields
  rw [fields]
  cases ended <;> refine ⟨rfl, ?_⟩ <;> dsimp only <;> (try split) <;> omega

/-- A failure leaves the row loop before the rollback. -/
theorem verify_unfinished (failed : ∀ stop, (r.verify maxModelLen rows nSpec).2 ≠ .ofStop stop) :
    (r.verify maxModelLen rows nSpec).1 =
      (verifyRows maxModelLen rows (r.specTokens.take nSpec) r).1 := by
  rw [verify_ended] at failed
  unfold verify
  generalize verifyRows maxModelLen rows (r.specTokens.take nSpec) r = result at failed ⊢
  obtain ⟨last, nAccepted, ended⟩ := result
  cases ended with
  | next => exact (failed none rfl).elim
  | stop why => exact (failed (some why) rfl).elim
  | threw message => rfl
  | aborted => rfl

/-- Sampling that fails leaves the request as it was. -/
theorem verify_failed (draftable : r.Draftable)
    (failed : ∀ stop, (r.verify maxModelLen rows nSpec).2 ≠ .ofStop stop) :
    (r.verify maxModelLen rows nSpec).1 = r := by
  rw [verify_unfinished failed]
  rw [verify_ended] at failed
  have constrained : r.grammar ≠ none := by
    intro free
    obtain ⟨stop, same⟩ := verifyRows_free maxModelLen rows (r.specTokens.take nSpec) free
    exact failed stop same
  have none : r.specTokens = [] := by
    by_contra some
    exact constrained (draftable some).2
  rw [none, take_nil] at failed ⊢
  cases rows with
  | nil => rfl
  | cons row rows =>
    rw [verifyRows] at failed ⊢
    split
    · rfl
    · rfl
    · rename_i stop stepped
      rw [stepped] at failed
      exact (failed stop rfl).elim

theorem verify_next {next : Request M} (drafts : nSpec ≤ r.specTokens.length)
    (computed : r.numComputedTokens = r.nTokens + nSpec)
    (verified : r.verify maxModelLen rows nSpec = (next, .next)) :
    (nSpec < rows.length → next.numComputedTokens + 1 = next.nTokens) ∧
      (r.nTokens < maxModelLen → next.nTokens < maxModelLen) := by
  have fields := verifyRows_fields maxModelLen rows (r.specTokens.take nSpec) r
  have accepts := verifyRows_accepts maxModelLen rows (r.specTokens.take nSpec) r
  have ended := verify_ended maxModelLen nSpec rows r
  rw [verified] at ended
  obtain ⟨count, short⟩ := verifyRows_next ended.symm
  unfold verify at verified
  generalize verifyRows maxModelLen rows (r.specTokens.take nSpec) r = result
    at fields accepts ended count short verified
  obtain ⟨last, nAccepted, final⟩ := result
  dsimp only at fields ended count short verified
  subst ended
  have few : nAccepted ≤ (r.specTokens.take nSpec).length := accepts.few
  have same : last.numComputedTokens = r.numComputedTokens := by rw [fields]
  rw [length_take, Nat.min_eq_left drafts] at count few
  rw [← (Prod.mk.inj verified).1]
  refine ⟨?_, short⟩
  intro enough
  have tokens : last.nTokens = r.nTokens + nAccepted + 1 := count enough
  change (if nSpec > 0 then _ else _) + 1 = last.nTokens
  rw [same, computed, tokens]
  split <;> omega

end Request

end Iian
