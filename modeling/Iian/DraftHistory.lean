import Iian.GreedyDrafts

/- Histories of requests: they grow by accepted and recovered tokens, are preempted and end,
and the engine asks for drafts in between. -/
namespace Iian

open List Lib

open DraftRequest (settled)

variable {M : Model}

variable {action : DraftAction} {actions : List DraftAction} {id : Nat}
    {f : DraftRequest → DraftRequest}

namespace DraftAction

/-- The request gets a new token, or it is preempted. -/
def Renews (id : Nat) : DraftAction → Prop
  | .grow other _ _ => other = id
  | .preempt other => other = id
  | _ => False

/-- The engine asks for drafts of the request. -/
def Asks (id : Nat) : DraftAction → Prop
  | .draft cands _ _ => id ∈ cands
  | _ => False

/-- Every computation of the call succeeds. -/
def Succeeds : DraftAction → Prop
  | .draft _ _ fault => fault = none
  | _ => True

/-- If a computation of the call fails, it is one of a decode round. -/
def CatchesUp : DraftAction → Prop
  | .draft _ _ fault => ∀ batch count, fault ≠ some (.catchUp batch count)
  | _ => True

theorem Succeeds.catchesUp (succeeds : action.Succeeds) : action.CatchesUp := by
  cases action with
  | draft cands once fault =>
    have calm : fault = none := succeeds
    intro batch count
    rw [calm]
    exact nofun
  | _ => trivial

end DraftAction

/-- Between two calls for a request its tokens grow, or it is preempted. -/
def Renewed (actions : List DraftAction) : Prop :=
  ∀ front first middle last back, actions = front ++ first :: (middle ++ last :: back) →
    ∀ id, first.Asks id → last.Asks id → ∃ action ∈ middle, action.Renews id

/-- There was a call for the request, and nothing has happened to its tokens since. -/
def AskedLast (actions : List DraftAction) (id : Nat) : Prop :=
  ∃ front call middle, actions = front ++ call :: middle ∧ call.Asks id ∧
    ∀ action ∈ middle, ¬ action.Renews id

theorem not_askedLast_nil (id : Nat) : ¬ AskedLast [] id := by
  rintro ⟨front, call, middle, shape, _⟩
  simp at shape

theorem askedLast_concat :
    AskedLast (actions ++ [action]) id ↔
      action.Asks id ∨ AskedLast actions id ∧ ¬ action.Renews id := by
  constructor
  · rintro ⟨front, call, middle, shape, asks, idle⟩
    rcases eq_nil_or_concat middle with rfl | ⟨rest, last, rfl⟩
    · obtain ⟨_, same⟩ := append_inj' shape rfl
      cases same
      exact .inl asks
    · rw [concat_eq_append, ← cons_append, ← append_assoc] at shape
      obtain ⟨rfl, same⟩ := append_inj' shape rfl
      cases same
      refine .inr ⟨⟨front, call, rest, rfl, asks, ?_⟩, ?_⟩
      · exact fun other member => idle other (by simp [member])
      · exact idle action (by simp)
  · rintro (asks | ⟨⟨front, call, middle, rfl, asks, idle⟩, quiet⟩)
    · exact ⟨actions, action, [], rfl, asks, nofun⟩
    · refine ⟨front, call, middle ++ [action], by simp, asks, ?_⟩
      exact forall_mem_append.mpr ⟨idle, forall_mem_singleton.mpr quiet⟩

theorem renewed_nil : Renewed [] := by
  intro front first middle last back shape
  simp at shape

/-- A call finds its requests with new tokens. -/
theorem renewed_concat :
    Renewed (actions ++ [action]) ↔
      Renewed actions ∧ ∀ id, action.Asks id → ¬ AskedLast actions id := by
  constructor
  · intro renewed
    refine ⟨?_, ?_⟩
    · intro front first middle last back shape
      exact renewed front first middle last (back ++ [action]) (by rw [shape]; simp)
    · rintro id asks ⟨front, call, middle, rfl, asked, idle⟩
      obtain ⟨other, member, renews⟩ := renewed front call middle action [] (by simp) id asked asks
      exact idle other member renews
  · rintro ⟨renewed, fresh⟩ front first middle last back shape id asks again
    rcases eq_nil_or_concat back with rfl | ⟨rest, final, rfl⟩
    · rw [← cons_append, ← append_assoc] at shape
      obtain ⟨rfl, same⟩ := append_inj' shape rfl
      cases same
      by_contra none
      refine fresh id again ⟨front, first, middle, rfl, asks, ?_⟩
      exact fun action member renews => none ⟨action, member, renews⟩
    · rw [concat_eq_append, ← cons_append, ← append_assoc, ← cons_append, ← append_assoc] at shape
      obtain ⟨rfl, _⟩ := append_inj' shape rfl
      exact renewed front first middle last rest (by simp) id asks again

namespace DraftModel

/-- What an action makes of a request that had a predecessor. -/
structure Follows (action : DraftAction) (r last : DraftRequest) : Prop where
  id : last.id = r.id
  epoch : r.draftEpoch ≤ r.numPreemptions → last.draftEpoch ≤ last.numPreemptions
  fresh : action.Asks r.id ∨ last.Fresh ∨ last.nTokens = 0 ∨
    ¬ action.Renews r.id ∧ (r.Fresh → last.Fresh) ∧ (r.nTokens = 0 → last.nTokens = 0)

/-- A request the draft model has not seen. -/
def New (last : DraftRequest) : Prop :=
  last.draftEpoch ≤ last.numPreemptions ∧ (last.Fresh ∨ last.nTokens = 0)

/-- Nothing that counts has changed. -/
theorem Follows.still {r last : DraftRequest} (quiet : ¬ action.Renews r.id) (id : last.id = r.id)
    (tokens : last.tokens = r.tokens) (preemptions : last.numPreemptions = r.numPreemptions)
    (epoch : last.draftEpoch = r.draftEpoch) (computed : last.draftComputed = r.draftComputed) :
    Follows action r last := by
  have count : last.nTokens = r.nTokens := congrArg List.length tokens
  refine ⟨id, ?_, .inr (.inr (.inr ⟨quiet, ?_, ?_⟩))⟩
  · rw [epoch, preemptions]
    exact fun least => least
  · unfold DraftRequest.Fresh
    rw [epoch, preemptions, computed, count]
    exact fun fresh => fresh
  · rw [count]
    exact fun none => none

variable {d : DraftModel M}

theorem Sound.modify (sound : d.Sound d.cells settled)
    (revised : ∀ r ∈ d.requests, r.Revises settled settled (f r)) :
    (d.modify id f).Sound d.cells settled := by
  apply sound.revise
  intro r member
  split
  · exact revised r member
  · exact .real rfl rfl (prefix_refl _) (Nat.le_refl _) (sound.caught r member)

/-- The request of a `modify` changes, the others stay. -/
theorem follows_modify (mine : ∀ r ∈ d.requests, r.id = id → Follows action r (f r))
    (quiet : ∀ r ∈ d.requests, r.id ≠ id → ¬ action.Renews r.id) :
    ∀ last ∈ (d.modify id f).requests, New last ∨ ∃ r ∈ d.requests, Follows action r last := by
  intro last member
  obtain ⟨r, inside, rfl⟩ := mem_map.mp member
  refine .inr ⟨r, inside, ?_⟩
  split
  · rename_i same
    exact mine r inside same
  · rename_i different
    exact .still (quiet r inside different) rfl rfl rfl rfl rfl

/-- The history of the requests so far. -/
structure History (nDraft : Nat) (actions : List DraftAction) (d : DraftModel M) : Prop where
  sound : d.Sound d.cells settled
  positive : 0 < nDraft
  count : d.nDraft = nDraft
  epochs : ∀ r ∈ d.requests, r.draftEpoch ≤ r.numPreemptions
  fresh : ∀ r ∈ d.requests, r.Fresh ∨ r.nTokens = 0 ∨ AskedLast actions r.id

theorem History.follow {nDraft : Nat} (history : History nDraft actions d) {next : DraftModel M}
    (sound : next.Sound next.cells settled) (same : next.nDraft = d.nDraft)
    (follows : ∀ last ∈ next.requests, New last ∨ ∃ r ∈ d.requests, Follows action r last) :
    History nDraft (actions ++ [action]) next := by
  refine ⟨sound, history.positive, same.trans history.count, ?_, ?_⟩
  · intro last member
    rcases follows last member with ⟨epoch, _⟩ | ⟨r, inside, follow⟩
    · exact epoch
    · exact follow.epoch (history.epochs r inside)
  · intro last member
    rcases follows last member with ⟨_, fresh | none⟩ | ⟨r, inside, follow⟩
    · exact .inl fresh
    · exact .inr (.inl none)
    rcases follow.fresh with asks | fresh | none | ⟨quiet, stays, empty⟩
    · rw [follow.id]
      exact .inr (.inr (askedLast_concat.mpr (.inl asks)))
    · exact .inl fresh
    · exact .inr (.inl none)
    rcases history.fresh r inside with fresh | none | asked
    · exact .inl (stays fresh)
    · exact .inr (.inl (empty none))
    · rw [follow.id]
      exact .inr (.inr (askedLast_concat.mpr (.inr ⟨asked, quiet⟩)))

end DraftModel

namespace DraftModel

variable {d : DraftModel M}

/-- A request without cells enters. -/
theorem Sound.submit {cells : Cells M} (sound : d.Sound cells settled) {r : DraftRequest}
    (id : r.id = d.requests.length) (blank : r.draftKv = {}) (zero : r.draftComputed = 0) :
    ({ d with requests := d.requests ++ [r] } : DraftModel M).Sound cells settled := by
  have perm : ((d.requests ++ [r]).map (DraftRequest.seat settled)).Perm
      (r.seat settled :: d.requests.map (DraftRequest.seat settled)) := by
    rw [map_append]
    exact perm_append_comm
  have layout : Layout d.pool cells
      (r.seat settled :: d.requests.map (DraftRequest.seat settled)) (fun _ => False) :=
    sound.layout.insert blank zero (HashesOf.nil _ _ _)
  have exact : Exact d.pool cells
      (r.seat settled :: d.requests.map (DraftRequest.seat settled)) :=
    Layout.insertExact sound.exact blank
  refine ⟨?_, sound.size, ?_, ?_, layout.perm perm.symm, exact.perm perm.symm, sound.runs⟩
  · rw [map_append, sound.ids, length_append, length_singleton, range_succ, map_singleton, id]
  · refine forall_mem_append.mpr ⟨sound.uncached, forall_mem_singleton.mpr ?_⟩
    rw [blank]
  · refine forall_mem_append.mpr ⟨sound.caught, forall_mem_singleton.mpr ?_⟩
    rw [zero]
    exact Nat.zero_le _

variable [LinearOrder M.Logit]

theorem History.step {nDraft : Nat} (history : History nDraft actions d) (calm : action.CatchesUp) :
    History nDraft (actions ++ [action]) (d.apply action) := by
  have sound := history.sound
  cases action with
  | submit tokens isEmbedding grammar =>
    refine history.follow (sound.submit rfl rfl rfl) rfl ?_
    intro last member
    rcases mem_append.mp member with old | new
    · exact .inr ⟨last, old, .still id rfl rfl rfl rfl rfl⟩
    rw [mem_singleton.mp new]
    refine .inl ⟨Nat.le_refl _, ?_⟩
    rcases Nat.eq_zero_or_pos tokens.length with none | some
    · exact .inr none
    · exact .inl (fun _ => some)
  | compute id count =>
    refine history.follow (sound.modify ?_) rfl (follows_modify ?_ (fun _ _ _ => nofun))
    · intro r member
      exact .real rfl rfl (prefix_refl _) (Nat.le_refl _) (sound.caught r member)
    · intro r member _
      exact .still nofun rfl rfl rfl rfl rfl
  | grow id accepted recovered =>
    refine history.follow (sound.modify ?_) rfl (follows_modify ?_ ?_)
    · intro r member
      refine .real rfl rfl ?_ (Nat.le_refl _) (sound.caught r member)
      rw [append_assoc]
      exact prefix_append _ _
    · intro r member same
      refine ⟨rfl, fun least => least, .inr (.inl ?_)⟩
      intro _
      have caught := sound.caught r member
      unfold DraftRequest.nTokens at caught ⊢
      simp only [length_append, length_singleton]
      omega
    · intro r _ different
      exact fun same => different same.symm
  | preempt id =>
    refine history.follow (sound.modify ?_) rfl (follows_modify ?_ ?_)
    · intro r member
      exact .real rfl rfl (prefix_refl _) (Nat.le_refl _) (sound.caught r member)
    · intro r member same
      have least := history.epochs r member
      refine ⟨rfl, fun _ => Nat.le_succ_of_le least, .inr (.inl ?_)⟩
      intro current
      dsimp only at current
      omega
    · intro r _ different
      exact fun same => different same.symm
  | finish id =>
    cases found : d.find id with
    | none =>
      have same : d.apply (.finish id) = d := by rw [apply, found]
      rw [same]
      exact history.follow sound rfl
        (fun r member => .inr ⟨r, member, .still nofun rfl rfl rfl rfl rfl⟩)
    | some r =>
      obtain ⟨member, rfl⟩ := find_some found
      obtain ⟨layout, exact⟩ := sound.place member
      obtain ⟨pool, released, size, placed⟩ := DraftRequest.release_spec layout exact
      have shape : d.apply (.finish r.id) = { d with pool := pool }.store
          { r with draftKv := {}, draftComputed := 0, isFinished := true } := by
        rw [apply, found]
        dsimp only
        rw [released]
      rw [shape]
      obtain ⟨layout, exact⟩ := placed
        { r with draftKv := {}, draftComputed := 0, isFinished := true } rfl rfl
      have key : ({ r with draftKv := {}, draftComputed := 0, isFinished := true } :
        DraftRequest).id = r.id := rfl
      refine history.follow (sound.store member key (size.trans sound.size) rfl (Nat.zero_le _)
        (fun _ _ _ => rfl) layout exact) rfl ?_
      intro last inside
      rcases mem_store inside with rfl | ⟨old, _⟩
      · refine .inl ⟨history.epochs r member, ?_⟩
        rcases Nat.eq_zero_or_pos r.nTokens with none | some
        · exact .inr none
        · exact .inl (fun _ => some)
      · exact .inr ⟨last, old, .still nofun rfl rfl rfl rfl rfl⟩
  | draft cands once fault =>
    have whole : ∀ batch, DraftFault.inCatchUp batch fault = none := by
      intro batch
      cases fault with
      | none => rfl
      | some fault =>
        cases fault with
        | catchUp number count => exact absurd rfl (calm number count)
        | round number count => rfl
    obtain ⟨next, result, shape, called⟩ := draft_spec sound
      (history.count ▸ history.positive) once whole
    have follows : ∀ last ∈ next.requests, New last ∨
        ∃ r ∈ d.requests, Follows (.draft cands once fault) r last := by
      intro last member
      obtain ⟨r, inside, same, epoch, other, _⟩ := called.requests last member
      refine .inr ⟨r, inside, ?_⟩
      by_cases here : r.id ∈ cands
      · refine ⟨same.id, ?_, .inl here⟩
        intro least
        rw [same.numPreemptions]
        rcases epoch with kept | reset
        · rw [kept]
          exact least
        · rw [reset]
      · rw [other here]
        exact .still nofun rfl rfl rfl rfl rfl
    change History _ _ (d.draftCaught cands fault)
    rw [draftCaught, shape]
    rcases called.outcome with done | ⟨failed, _⟩
    · rw [done]
      exact history.follow called.sound called.nDraft follows
    rw [failed]
    refine history.follow (called.sound.clearSpec cands) called.nDraft ?_
    intro last member
    obtain ⟨mid, inside, rfl⟩ := mem_map.mp member
    split
    · rcases follows mid inside with new | ⟨r, here, follow⟩
      · exact .inl new
      · exact .inr ⟨r, here, follow.id, follow.epoch, follow.fresh⟩
    · exact follows mid inside

section

variable (M : Model) (specDraftN numBlocks : Nat)

theorem after_concat [LinearOrder M.Logit] (actions : List DraftAction) (action : DraftAction) :
    after M specDraftN numBlocks (actions ++ [action]) =
      (after M specDraftN numBlocks actions).apply action := by
  rw [after, foldl_append]
  rfl

/-- Every history keeps the cache sound if no catch-up batch fails. -/
theorem after_history [LinearOrder M.Logit] (calm : ∀ action ∈ actions, action.CatchesUp) :
    History (max 1 specDraftN) actions (after M specDraftN numBlocks actions) := by
  induction actions using List.reverseRecOn with
  | nil =>
    obtain ⟨layout, exact⟩ := @Layout.new M numBlocks 16 false (by decide) (fun _ => False)
    exact ⟨⟨rfl, rfl, nofun, nofun, layout, exact, nofun⟩,
      Nat.lt_of_lt_of_le Nat.one_pos (Nat.le_max_left _ _), rfl, nofun, nofun⟩
  | append_singleton actions action ih =>
    rw [after_concat]
    exact (ih (fun other member => calm other (mem_append_left _ member))).step
      (calm action (mem_append_right _ mem_cons_self))

/-- A call of a history that succeeds. -/
theorem after_call [LinearOrder M.Logit] {before : List DraftAction} {cands : List Nat}
    {once : cands.Nodup} (calm : ∀ action ∈ before, action.CatchesUp)
    (renewed : Renewed (before ++ [.draft cands once none])) :
    ∀ r ∈ (after M specDraftN numBlocks (before ++ [.draft cands once none])).requests,
      r.id ∈ cands → r.Draftable → r.HasCells (max 1 specDraftN) →
      r.Greedy M (max 1 specDraftN) := by
  have history := after_history M specDraftN numBlocks calm
  have whole : ∀ batch, DraftFault.inCatchUp batch none = none := fun _ => rfl
  obtain ⟨next, result, shape, called⟩ := draft_spec history.sound
    (history.count ▸ history.positive) once whole
  have done : result = .ok () := by
    rcases called.outcome with done | ⟨_, fault⟩
    · exact done
    · exact absurd rfl fault
  rw [after_concat]
  change ∀ r ∈ (draftCaught _ cands none).requests, _
  rw [draftCaught, shape, done]
  intro last member listed draftable enough
  obtain ⟨r, inside, same, _, _, greedy⟩ := called.requests last member
  rw [history.count] at greedy
  rw [same.id] at listed
  have ready := same.draftable draftable
  refine greedy done listed ready ?_ enough
  rcases history.fresh r inside with fresh | none | asked
  · exact fresh
  · have computed := ready.computed
    omega
  · exact absurd asked ((renewed_concat.mp renewed).2 r.id listed)

end

/-- Every proposal is the draft model's greedy continuation: in every history whose
computations succeed and in which the tokens of a request grow between two calls for it, each
call leaves the requests that got their cells with greedy proposals. The batches keep the
requests apart, and the cache holds what the requests were fed. -/
theorem after_greedy (M : Model) [LinearOrder M.Logit] (specDraftN numBlocks : Nat)
    {actions : List DraftAction} (succeed : ∀ action ∈ actions, action.Succeeds)
    (renewed : Renewed actions) :
    (∀ ran ∈ (after M specDraftN numBlocks actions).runs, ran.Separate) ∧
    (∀ r ∈ (after M specDraftN numBlocks actions).requests,
      (after M specDraftN numBlocks actions).Holds r) ∧
    ∀ before cands once fault, actions = before ++ [.draft cands once fault] →
      ∀ r ∈ (after M specDraftN numBlocks actions).requests, r.id ∈ cands → r.Draftable →
        r.HasCells (max 1 specDraftN) → r.Greedy M (max 1 specDraftN) := by
  have calm : ∀ action ∈ actions, action.CatchesUp :=
    fun action member => (succeed action member).catchesUp
  have sound := (after_history M specDraftN numBlocks calm).sound
  refine ⟨sound.runs, fun r member => sound.holds member, ?_⟩
  rintro before cands once fault rfl
  have whole : fault = none := succeed _ (mem_append_right _ mem_cons_self)
  subst whole
  exact after_call M specDraftN numBlocks
    (fun action member => calm action (mem_append_left _ member)) renewed

/-- The best token behind a prefix is its length. -/
def lengths : Model :=
  Model.counting.ofPrefix (fun tokens =>
    ((List.range 8).map (fun t => if t = tokens.length then 1 else 0) : List Int))

instance : LinearOrder lengths.Logit := inferInstanceAs (LinearOrder Int)

instance : DecidableEq lengths.KV := inferInstanceAs (DecidableEq Int)

/-- Drafts are accepted in part, and a second request comes in. -/
def acceptedActions : List DraftAction :=
  [.submit [7] false false, .draft [0] (by decide) none, .grow 0 1 5, .submit [9, 9] false false,
    .compute 1 1, .draft [0, 1] (by decide) none]

theorem acceptedActions_renewed : Renewed acceptedActions := by
  have shape : acceptedActions = [] ++ [.submit [7] false false] ++ [.draft [0] (by decide) none] ++
      [.grow 0 1 5] ++ [.submit [9, 9] false false] ++ [.compute 1 1] ++
      [.draft [0, 1] (by decide) none] := rfl
  rw [shape]
  simp only [renewed_concat, askedLast_concat, renewed_nil, not_askedLast_nil, DraftAction.Asks,
    DraftAction.Renews]
  simp

theorem after_greedy_accepted :
    (after lengths 2 2 acceptedActions).requests.map DraftRequest.specTokens = [[3, 4], [2, 3]] ∧
      ∀ r ∈ (after lengths 2 2 acceptedActions).requests, r.Greedy lengths 2 := by
  have requests : (after lengths 2 2 acceptedActions).requests = [
      { id := 0, tokens := [7, 1, 5], numComputedTokens := 2, specTokens := [3, 4]
        draftKv := { blockIds := [0] }, draftComputed := 3 },
      { id := 1, tokens := [9, 9], numComputedTokens := 1, specTokens := [2, 3]
        draftKv := { blockIds := [1] }, draftComputed := 2 }] := by decide +kernel
  have succeed : ∀ action ∈ acceptedActions, action.Succeeds := by
    simp [acceptedActions, DraftAction.Succeeds]
  obtain ⟨_, _, greedy⟩ := after_greedy lengths 2 2 succeed acceptedActions_renewed
  refine ⟨by rw [requests]; rfl, ?_⟩
  intro r member
  refine greedy acceptedActions.dropLast [0, 1] (by decide) none rfl r member ?_ ?_ ?_
  all_goals
    rw [requests] at member
    simp only [mem_cons, not_mem_nil, or_false] at member
    rcases member with rfl | rfl
  · decide
  · decide
  · exact ⟨rfl, rfl, rfl, rfl⟩
  · exact ⟨rfl, rfl, rfl, rfl⟩
  · decide
  · decide

/-- The draft state survives failures of the decode rounds: `draft_computed` counts tokens
the cache really holds, and calls that succeed later propose the greedy continuation. -/
theorem after_usable (M : Model) [LinearOrder M.Logit] (specDraftN numBlocks : Nat)
    {actions : List DraftAction} (calm : ∀ action ∈ actions, action.CatchesUp)
    (renewed : Renewed actions) :
    (∀ r ∈ (after M specDraftN numBlocks actions).requests,
      (after M specDraftN numBlocks actions).Holds r) ∧
    ∀ before cands once, actions = before ++ [.draft cands once none] →
      ∀ r ∈ (after M specDraftN numBlocks actions).requests, r.id ∈ cands → r.Draftable →
        r.HasCells (max 1 specDraftN) → r.Greedy M (max 1 specDraftN) := by
  have sound := (after_history M specDraftN numBlocks calm).sound
  refine ⟨fun r member => sound.holds member, ?_⟩
  rintro before cands once rfl
  exact after_call M specDraftN numBlocks
    (fun action member => calm action (mem_append_left _ member)) renewed

/-- A call fails, the request grows, and the next call succeeds. -/
def failedActions (fault : DraftFault) : List DraftAction :=
  [.submit [7] false false, .draft [0] (by decide) (some fault), .grow 0 0 5,
    .draft [0] (by decide) none]

theorem failedActions_renewed (fault : DraftFault) : Renewed (failedActions fault) := by
  have shape : failedActions fault = [] ++ [.submit [7] false false] ++
      [.draft [0] (by decide) (some fault)] ++ [.grow 0 0 5] ++ [.draft [0] (by decide) none] := rfl
  rw [shape]
  simp only [renewed_concat, askedLast_concat, renewed_nil, not_askedLast_nil, DraftAction.Asks,
    DraftAction.Renews]
  simp

theorem after_usable_round :
    (after lengths 2 1 (failedActions (.round 1 1))).requests.map DraftRequest.specTokens =
        [[2, 3]] ∧
      ∀ r ∈ (after lengths 2 1 (failedActions (.round 1 1))).requests, r.Greedy lengths 2 := by
  have requests : (after lengths 2 1 (failedActions (.round 1 1))).requests = [
      { id := 0, tokens := [7, 5], numComputedTokens := 1, specTokens := [2, 3]
        draftKv := { blockIds := [0] }, draftComputed := 2 }] := by decide +kernel
  have calm : ∀ action ∈ failedActions (.round 1 1), action.CatchesUp := by
    simp [failedActions, DraftAction.CatchesUp]
  obtain ⟨_, greedy⟩ := after_usable lengths 2 1 calm (failedActions_renewed _)
  refine ⟨by rw [requests]; rfl, ?_⟩
  intro r member
  refine greedy (failedActions (.round 1 1)).dropLast [0] (by decide) rfl r member ?_ ?_ ?_
  all_goals
    rw [requests, mem_singleton] at member
    subst member
  · decide
  · exact ⟨rfl, rfl, rfl, rfl⟩
  · decide

/-- A catch-up batch fails before it has written anything. Its token counts as seen all the
same, and the next call proposes the token behind a prefix without it. -/
theorem after_unusable :
    Renewed (failedActions (.catchUp 0 0)) ∧
    (∃ r ∈ (after lengths 1 1 ((failedActions (.catchUp 0 0)).take 2)).requests,
      ¬ (after lengths 1 1 ((failedActions (.catchUp 0 0)).take 2)).Holds r) ∧
    ∃ r ∈ (after lengths 1 1 (failedActions (.catchUp 0 0))).requests,
      r.id ∈ [0] ∧ r.Draftable ∧ r.HasCells (max 1 1) ∧ ¬ r.Greedy lengths (max 1 1) := by
  refine ⟨failedActions_renewed _, ?_, ?_⟩
  · have requests : (after lengths 1 1 ((failedActions (.catchUp 0 0)).take 2)).requests = [
        { id := 0, tokens := [7], draftKv := { blockIds := [0] }, draftComputed := 1 }] := by
      decide +kernel
    rw [requests]
    refine ⟨_, mem_singleton.mpr rfl, ?_⟩
    intro holds
    exact absurd holds.context (by decide +kernel)
  · have requests : (after lengths 1 1 (failedActions (.catchUp 0 0))).requests = [
        { id := 0, tokens := [7, 5], numComputedTokens := 1, specTokens := [1]
          draftKv := { blockIds := [0] }, draftComputed := 2 }] := by decide +kernel
    rw [requests]
    refine ⟨_, mem_singleton.mpr rfl, by decide, ⟨rfl, rfl, rfl, rfl⟩, by decide, ?_⟩
    intro greedy
    have first : FirstMax ([0, 0, 1, 0, 0, 0, 0, 0] : List Int) 1 :=
      greedy.best 0 1 rfl (cons_ne_nil _ _)
    obtain ⟨best, top, token, found, largest, _⟩ := first
    have place : best = 1 := by
      have same : (1 : Int) = best := token
      omega
    subst place
    have zero : top = 0 := by simpa using found.symm
    have one := largest 2 1 rfl
    omega

end DraftModel

end Iian
