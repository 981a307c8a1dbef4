import Iian.DraftRounds

/- Whole calls of the draft model, and whole histories of calls: what it proposes is its own
greedy continuation, as long as the catch-up batches are computed. -/
namespace Iian

open List Lib

open DraftRequest (settled)

variable {M : Model}

/-- The draft cache holds the first `draft_computed` tokens of a request. -/
structure DraftModel.Holds (d : DraftModel M) (r : DraftRequest) : Prop where
  caught : r.draftComputed ≤ r.nTokens
  context : Batch.context d.cells
      { cells := (List.range r.draftComputed).map (d.pool.cellOf r.draftKv) } r.draftComputed =
    M.cacheOf (r.tokens.take r.draftComputed)

theorem DraftModel.Sound.holds {d : DraftModel M} (sound : d.Sound d.cells settled)
    {r : DraftRequest} (member : r ∈ d.requests) : d.Holds r := by
  have caught := sound.caught r member
  refine ⟨caught, ?_⟩
  obtain ⟨layout, exact⟩ := sound.place member
  have table : ({ cells := (List.range r.draftComputed).map (d.pool.cellOf r.draftKv) } :
    SeqInfo).cells = (List.range r.draftComputed).map (d.pool.cellOf (r.seat settled).kv) := rfl
  rw [layout.context exact table (Nat.le_refl _) (Nat.le_refl _)]
  change M.cacheOf ((r.tokens ++ r.specTokens).take r.draftComputed) = _
  rw [take_append_of_le_length caught]

variable {reqs : List Nat} {logits : Nat → Option (List M.Logit)}

namespace DraftModel

variable {d : DraftModel M}

/-- The rows of round 0. -/
abbrev firstRows (reqs : List Nat) (logits : Nat → Option (List M.Logit)) :
    List (Nat × List M.Logit) :=
  reqs.filterMap (fun id => (logits id).map (fun row => (id, row)))

theorem rows_sublist (reqs : List Nat) (logits : Nat → Option (List M.Logit)) :
    ((firstRows reqs logits).map Prod.fst).Sublist reqs := by
  unfold firstRows
  induction reqs with
  | nil => exact List.Sublist.refl _
  | cons id reqs ih =>
    rw [filterMap_cons]
    cases logits id with
    | none => exact ih.cons id
    | some row => exact ih.cons_cons id

theorem mem_rows {id : Nat} {row : List M.Logit} :
    (id, row) ∈ firstRows reqs logits ↔ id ∈ reqs ∧ logits id = some row := by
  rw [mem_filterMap]
  constructor
  · rintro ⟨other, inside, same⟩
    obtain ⟨found, read, shape⟩ := Option.map_eq_some_iff.mp same
    cases shape
    exact ⟨inside, read⟩
  · rintro ⟨inside, read⟩
    exact ⟨id, inside, by rw [read]; rfl⟩

/-- The proposals of earlier calls are forgotten. -/
theorem Sound.clearSpec {cells : Cells M} (sound : d.Sound cells settled) (ids : List Nat) :
    (d.clearSpec ids).Sound cells settled := by
  apply sound.revise
  intro r member
  split
  · exact .real rfl rfl (prefix_refl _) (Nat.le_refl _) (sound.caught r member)
  · exact .real rfl rfl (prefix_refl _) (Nat.le_refl _) (sound.caught r member)

/-- Before the first catch-up batch. -/
theorem Admission.assembling {next : DraftModel M} {ids : List Nat}
    (admission : Admission d ids next reqs) :
    Assembling next reqs
      (fun id => ∃ r ∈ next.requests, r.id = id ∧ r.draftComputed < r.nTokens) (fun _ => none)
      next { lastRow := fun _ => none } := by
  have sound := admission.sound
  rw [← admission.cells] at sound
  refine ⟨sound, .empty _ _, rfl, rfl, ?_, ?_, ?_, rfl, rfl, fun absurd => (absurd rfl).elim⟩
  · intro last member listed
    obtain ⟨r, _, admits⟩ := admission.requests last member
    rw [admits.same.id] at listed
    rw [admission.nDraft]
    exact admits.cells listed
  · exact fun r member => ⟨r, member, rfl, fun _ => rfl⟩
  · rintro r member ⟨other, inside, same, behind⟩
    rw [inj_on_of_nodup_map sound.unique inside member same] at behind
    exact .waiting rfl rfl behind

theorem clear_respecs (reqs : List Nat) (r : DraftRequest) :
    r.Respecs reqs (if r.id ∈ reqs then { r with specTokens := [] } else r) := by
  split
  · rename_i inside
    exact ⟨rfl, fun absent => absurd inside absent⟩
  · exact .refl reqs r

end DraftModel

variable [LinearOrder M.Logit]

/-- The proposals of a request are the greedy continuation of its tokens: as many as asked
for, or up to the first end of generation. -/
structure DraftRequest.Greedy (M : Model) [LinearOrder M.Logit] (nDraft : Nat)
    (r : DraftRequest) : Prop where
  best : ∀ j token, r.specTokens[j]? = some token →
    M.prefixLogits (r.tokens ++ r.specTokens.take j) ≠ [] →
    FirstMax (M.prefixLogits (r.tokens ++ r.specTokens.take j)) token
  first : ∀ j token, r.specTokens[j]? = some token → M.isEog token = true →
    j + 1 = r.specTokens.length
  short : r.specTokens.length ≤ nDraft
  ended : r.specTokens.length = nDraft ∨
    ∃ token, r.specTokens.getLast? = some token ∧ M.isEog token = true
  computed : r.draftComputed = r.nTokens

namespace DraftModel

variable {d : DraftModel M} {fresh : Nat → Prop}

/-- What a call makes of a request: the proposals are greedy if the call succeeds, the
request got cells and the draft model was behind. -/
structure Called (d : DraftModel M) (cands : List Nat) (fault : Option DraftFault)
    (next : DraftModel M) (result : Outcome Unit) : Prop where
  sound : next.Sound next.cells settled
  nDraft : next.nDraft = d.nDraft
  outcome : result = .ok () ∨ result = .threw "draft: compute failed" ∧ fault ≠ none
  requests : ∀ last ∈ next.requests, ∃ r ∈ d.requests, r.Same last ∧
    (last.draftEpoch = r.draftEpoch ∨ last.draftEpoch = r.numPreemptions) ∧
    (r.id ∉ cands → last = r) ∧
    (result = .ok () → r.id ∈ cands → r.Draftable → r.Fresh → last.HasCells d.nDraft →
      last.Greedy M d.nDraft)

/-- The rows behind the last tokens are the rows of round 0. -/
theorem CaughtUp.filled {next : DraftModel M} (caught : CaughtUp d reqs fresh next logits)
    (once : reqs.Nodup) (known : ∀ id ∈ reqs, id < next.requests.length) :
    Filled reqs fresh 0 (next.clearSpec reqs) (firstRows reqs logits) := by
  have sub := rows_sublist reqs logits
  have own : ∀ last ∈ (next.clearSpec reqs).requests, last.id ∈ reqs →
      last.HasCells next.nDraft ∧ last.draftComputed = last.nTokens ∧ last.specTokens = [] ∧
        (fresh last.id → logits last.id = some (M.prefixLogits last.tokens)) := by
    intro last member
    obtain ⟨r, inside, rfl⟩ := mem_map.mp member
    split
    · exact fun here => ⟨caught.room r inside here, caught.caught r inside here, rfl,
        caught.logits r inside here⟩
    · rename_i absent
      exact fun here => absurd here absent
  have sound := caught.sound.clearSpec reqs
  have ahead : ∀ last ∈ (next.clearSpec reqs).requests,
      fedAhead reqs ((firstRows reqs logits).map Prod.fst) last = settled last := by
    intro last member
    by_cases listed : last.id ∈ reqs
    · obtain ⟨_, _, none, _⟩ := own last member listed
      simp [fedAhead, drafted, none]
    · rw [fedAhead, if_neg (fun inside => listed (sub.subset inside)), drafted, if_neg listed]
  refine ⟨?_, ⟨once.sublist sub, fun id inside => sub.subset inside, ?_, ?_, ?_, ?_, ?_, ?_, ?_, ?_⟩,
    ?_⟩
  · have seats : (next.clearSpec reqs).requests.map (DraftRequest.seat settled) =
        (next.clearSpec reqs).requests.map
          (DraftRequest.seat (fedAhead reqs ((firstRows reqs logits).map Prod.fst))) := by
      apply map_congr_left
      intro last member
      rw [DraftRequest.seat, DraftRequest.seat, ahead last member]
    have layout := sound.layout
    have exact := sound.exact
    rw [seats] at layout exact
    exact { sound with layout := layout, exact := exact }
  · intro id inside
    have bound := known id (sub.subset inside)
    apply sound.exists_id
    rw [DraftModel.clearSpec, length_map]
    exact bound
  · exact fun last member listed => (own last member listed).1
  · exact fun last member listed => (own last member listed).2.1
  · intro last member active
    rw [(own last member (sub.subset active)).2.2.1]
    rfl
  · intro last member listed
    rw [(own last member listed).2.2.1]
    exact Nat.le_refl 0
  · intro last member active
    rw [(own last member (sub.subset active)).2.2.1]
    intro token inside
    cases inside
  · intro last member listed _
    have none := (own last member listed).2.2.1
    exact ⟨by simp [none], by simp [none]⟩
  · intro last member listed grown absent
    have read := (own last member listed).2.2.2 grown
    exact absurd (mem_map.mpr ⟨_, mem_rows.mpr ⟨listed, read⟩, rfl⟩) absent
  · intro last member grown row found
    obtain ⟨listed, read⟩ := mem_rows.mp found
    obtain ⟨_, _, none, right⟩ := own last member listed
    rw [Option.some.inj (read.symm.trans (right grown)), DraftRequest.fed, none, append_nil]

theorem DraftedFor.greedy (drafted : DraftedFor reqs fresh d) {r : DraftRequest}
    (member : r ∈ d.requests) (listed : r.id ∈ reqs) (grown : fresh r.id) :
    r.Greedy M d.nDraft := by
  have proposes := drafted.proposes r member listed grown
  refine ⟨?_, proposes.first, drafted.short r member listed, drafted.ended r member listed grown,
    drafted.caught r member listed⟩
  intro j token found filled
  rw [proposes.best j token found]
  exact argmax_firstMax filled

/-- One call, when no catch-up batch fails. -/
theorem draft_spec (sound : d.Sound d.cells settled) (positive : 0 < d.nDraft) {cands : List Nat}
    (once : cands.Nodup) {fault : Option DraftFault}
    (calm : ∀ batch, DraftFault.inCatchUp batch fault = none) :
    ∃ next result, d.draft cands fault = (next, result) ∧ Called d cands fault next result := by
  rw [draft]
  by_cases nobody : cands = []
  · rw [if_pos (.inr nobody)]
    refine ⟨d, .ok (), rfl, sound, rfl, .inl rfl, ?_⟩
    intro r member
    refine ⟨r, member, .refl r, .inl rfl, fun _ => rfl, ?_⟩
    intro _ here
    rw [nobody] at here
    cases here
  rw [if_neg (not_or.mpr ⟨Nat.ne_of_gt positive, nobody⟩)]
  obtain ⟨first, reqs, admitted, admission⟩ := admitAll_spec sound once
  rw [admitted]
  dsimp only
  have start := admission.sound
  rw [← admission.cells] at start
  by_cases none : reqs = []
  · rw [if_pos (List.isEmpty_iff.mpr none)]
    refine ⟨first, .ok (), rfl, start, admission.nDraft, .inl rfl, ?_⟩
    intro last member
    obtain ⟨r, inside, admits⟩ := admission.requests last member
    refine ⟨r, inside, admits.same, admits.epoch, admits.other, ?_⟩
    intro _ here draftable _ enough
    have chosen := admits.kept here draftable enough
    rw [none] at chosen
    cases chosen
  rw [if_neg (by simpa using none)]
  obtain ⟨second, logits, fed, caught⟩ := catchUp_spec calm admission.assembling
    (Nat.lt_succ_self _) 0
  rw [fed]
  dsimp only
  have unique := once.sublist admission.sublist
  have known : ∀ id ∈ reqs, id < second.requests.length := by
    intro id inside
    rw [caught.count, admission.count]
    exact admission.known id inside
  have filled := caught.filled unique known
  obtain ⟨placed, waiting⟩ := filled.push
  have same : ((second.clearSpec reqs).pushDrafts (firstRows reqs logits)).1.nDraft =
      d.nDraft := caught.nDraft.trans admission.nDraft
  have left : ∀ {count : Nat}, count = d.nDraft → 0 + 1 + (count - 1) = count := by omega
  obtain ⟨last, result, shape, finished⟩ := rounds_spec fault waiting placed Nat.one_pos (left same)
  refine ⟨last, result, shape, finished.sound.settle, finished.nDraft.trans same, ?_, ?_⟩
  · rcases finished.result with ⟨done, _⟩ | failed
    · exact .inl done
    · exact .inr failed
  intro final member
  -- the request before the rounds, before the catch-up and before the call
  obtain ⟨_, inside, rounds⟩ := finished.requests final member
  obtain ⟨_, here, rfl⟩ := mem_map.mp inside
  obtain ⟨fedR, there, rfl⟩ := mem_map.mp here
  have respecs := ((clear_respecs reqs fedR).trans (pushed_respecs filled.waiting.listed _)).trans
    rounds
  obtain ⟨mid, early, advances⟩ := caught.requests fedR there
  obtain ⟨r, begin, admits⟩ := admission.requests mid early
  have final_eq : final = { mid with
      draftComputed := fedR.draftComputed, specTokens := final.specTokens } := by
    rw [respecs.shape, advances.shape]
  have whole : r.Same final := by
    rw [final_eq]
    exact admits.same.trans ⟨rfl, rfl, rfl, rfl, rfl, rfl, rfl⟩
  refine ⟨r, begin, whole, ?_, ?_, ?_⟩
  · rw [final_eq]
    exact admits.epoch
  · intro absent
    have outside : mid.id ∉ reqs := by
      rw [admits.same.id]
      exact fun inside => absent (admission.sublist.subset inside)
    have kept := advances.other outside
    rw [kept] at respecs
    rw [respecs.other outside, admits.other absent]
  · intro done listed draftable grown enough
    have cells : mid.HasCells d.nDraft := by
      rw [final_eq] at enough
      exact enough
    have chosen := admits.kept listed draftable cells
    have behind := admits.fresh chosen grown
    rcases finished.result with ⟨_, drafted⟩ | ⟨failed, _⟩
    · rw [← same, ← finished.nDraft]
      refine drafted.greedy member (by rw [whole.id]; exact chosen) ?_
      exact ⟨mid, early, by rw [whole.id, admits.same.id], behind⟩
    · rw [done] at failed
      cases failed

end DraftModel

end Iian
