import Iian.DraftCatchUp

/- The second half of a `draft` call: every request is given the best token behind its last
one, and then the best token behind that, round by round. -/
namespace Iian

open List Lib

open DraftRequest (settled)

section FirstMax

variable {α : Type} [LinearOrder α]

/-- `token` is the place of the first of the largest entries of a row. -/
def FirstMax (row : List α) (token : Token) : Prop :=
  ∃ (best : Nat) (top : α), token = (best : Int) ∧ row[best]? = some top ∧
    (∀ (t : Nat) x, row[t]? = some x → x ≤ top) ∧
    ∀ (t : Nat) x, t < best → row[t]? = some x → x < top

theorem argmaxFrom_firstMax {best : Nat} {top : α} {seen row : List α}
    (found : seen[best]? = some top) (largest : ∀ x ∈ seen, x ≤ top)
    (first : ∀ (t : Nat) x, t < best → seen[t]? = some x → x < top) :
    FirstMax (seen ++ row) (argmaxFrom best top seen.length row : Nat) := by
  induction row generalizing best top seen with
  | nil =>
    rw [append_nil]
    exact ⟨best, top, rfl, found, fun _ x inside => largest x (mem_of_getElem? inside), first⟩
  | cons x row ih =>
    have below : best < seen.length := (List.getElem?_eq_some_iff.mp found).choose
    have next : (seen ++ [x]).length = seen.length + 1 := by simp
    rw [argmaxFrom, ← next, show seen ++ x :: row = seen ++ [x] ++ row by simp]
    by_cases better : top < x
    · rw [if_pos better]
      apply ih
      · simp
      · refine forall_mem_append.mpr ⟨?_, forall_mem_singleton.mpr (le_refl x)⟩
        exact fun y old => le_of_lt (lt_of_le_of_lt (largest y old) better)
      · intro t y old inside
        rw [getElem?_append_left old] at inside
        exact lt_of_le_of_lt (largest y (mem_of_getElem? inside)) better
    · rw [if_neg better]
      apply ih
      · rw [getElem?_append_left below, found]
      · exact forall_mem_append.mpr ⟨largest, forall_mem_singleton.mpr (not_lt.mp better)⟩
      · intro t y less inside
        rw [getElem?_append_left (Nat.lt_trans less below)] at inside
        exact first t y less inside

theorem argmax_firstMax {row : List α} (filled : row ≠ []) : FirstMax row (argmax row) := by
  cases row with
  | nil => exact absurd rfl filled
  | cons x row =>
    have start : FirstMax ([x] ++ row) (argmaxFrom 0 x [x].length row : Nat) := by
      apply argmaxFrom_firstMax
      · rfl
      · exact forall_mem_singleton.mpr (le_refl x)
      · intro t y less
        omega
    exact start

end FirstMax

variable {M : Model}

variable {round : Nat} {r : DraftRequest} {reqs active : List Nat} {fresh : Nat → Prop}
    {rows : List (Nat × List M.Logit)}

/-- The last proposal is the last token that is fed. -/
theorem DraftRequest.getLastD_fed (r : DraftRequest) (length : r.specTokens.length = round)
    (positive : 0 < round) : r.specTokens.getLastD 0 = r.fed.getD (r.nTokens + round - 1) 0 := by
  have place : r.nTokens + round - 1 - r.tokens.length = round - 1 := by
    unfold DraftRequest.nTokens
    omega
  rw [getLastD_eq_getLast?, getLast?_eq_getElem?, DraftRequest.fed,
    getD_eq_getElem?_getD, getElem?_append_right (by unfold DraftRequest.nTokens; omega),
    length, place]

namespace DraftModel

/-- The proposals that have been fed to the draft model between two rounds: all but the last. -/
def drafted (reqs : List Nat) (r : DraftRequest) : Nat :=
  if r.id ∈ reqs then r.specTokens.length - 1 else 0

/-- The same when the batch of a round feeds the last proposal of the requests `done`. -/
def fedAhead (reqs done : List Nat) (r : DraftRequest) : Nat :=
  if r.id ∈ done then r.specTokens.length else drafted reqs r

variable {d : DraftModel M}

/-- The cells and the token behind which a round looks for the next proposal. -/
def rowOf (d : DraftModel M) (cells : Cells M) (id : Nat) : List (Option M.KV) × Token :=
  match d.find id with
  | none => ([], 0)
  | some r =>
    (Batch.context cells {
      cells := (List.range r.fed.length).map (d.pool.cellOf r.draftKv), fed := r.fed }
      r.fed.length, r.specTokens.getLastD 0)

/-- The loop that assembles the batch of a round: the requests `done` have their token in it. -/
structure Decoding (reqs : List Nat) (round : Nat) (d : DraftModel M) (done : List Nat)
    (ub : Batch) : Prop where
  sound : d.Sound (ub.write d.cells) (fedAhead reqs done)
  owned : ub.Owned d.pool d.requests done
  outputs : ∀ cells, ub.outputs cells = done.map (d.rowOf cells)
  slots : ∀ token ∈ ub.tokens, ∃ r ∈ d.requests, r.id ∈ done ∧
    token.slot = d.pool.cellOf r.draftKv (r.nTokens + round - 1)

theorem enqueueDraft_feeds (positive : 0 < round) (found : d.find r.id = some r)
    (length : r.specTokens.length = round) (ub : Batch) :
    Batch.Feeds d.pool r.draftKv (r.seqInfo d.pool r.fed.length) (r.nTokens + round - 1) 1
      [r.nTokens + round - 1] ub (d.enqueueDraft round ub r.id) := by
  have size : r.fed.length = r.nTokens + round := by
    rw [DraftRequest.fed, length_append, length]
    rfl
  have whole : r.nTokens + round - 1 + 1 = r.nTokens + round := by omega
  unfold enqueueDraft
  rw [found]
  dsimp only
  refine ⟨?_, ?_, ?_, ?_⟩
  · rw [r.getLastD_fed length positive]
    rfl
  · rw [whole, size]
  · simp
  · intro pos member
    rw [mem_singleton] at member
    omega

end DraftModel

/-- The request keeps all but its proposals. -/
structure DraftRequest.Respecs (reqs : List Nat) (r next : DraftRequest) : Prop where
  shape : next = { r with specTokens := next.specTokens }
  other : r.id ∉ reqs → next = r

theorem DraftRequest.Respecs.refl (reqs : List Nat) (r : DraftRequest) : r.Respecs reqs r :=
  ⟨rfl, fun _ => rfl⟩

theorem DraftRequest.Respecs.trans {next last : DraftRequest} (first : r.Respecs reqs next)
    (second : next.Respecs reqs last) : r.Respecs reqs last := by
  constructor
  · rw [second.shape, first.shape]
  intro absent
  have kept := first.other absent
  rw [kept] at second
  exact second.other absent

variable [LinearOrder M.Logit]

/-- The proposals of a request are the best tokens behind what comes before them, and only
the last of them can end the generation. -/
structure DraftRequest.Proposes (M : Model) [LinearOrder M.Logit] (r : DraftRequest) : Prop where
  best : ∀ j token, r.specTokens[j]? = some token →
    token = argmax (M.prefixLogits (r.tokens ++ r.specTokens.take j))
  first : ∀ j token, r.specTokens[j]? = some token → M.isEog token = true →
    j + 1 = r.specTokens.length

/-- One more proposal. -/
theorem DraftRequest.Proposes.push (proposes : r.Proposes M)
    (going : ∀ token ∈ r.specTokens, M.isEog token = false) :
    ({ r with specTokens := r.specTokens ++ [argmax (M.prefixLogits r.fed)] } :
      DraftRequest).Proposes M := by
  constructor
  · intro j token inside
    dsimp only at inside ⊢
    by_cases old : j < r.specTokens.length
    · rw [getElem?_append_left old] at inside
      rw [take_append_of_le_length (Nat.le_of_lt old)]
      exact proposes.best j token inside
    · have last : j = r.specTokens.length := by
        have bound := (List.getElem?_eq_some_iff.mp inside).choose
        rw [length_append, length_singleton] at bound
        omega
      rw [last, getElem?_append_right (Nat.le_refl _), Nat.sub_self] at inside
      rw [last, take_left]
      exact (Option.some.inj inside).symm
  · intro j token inside stop
    dsimp only at inside ⊢
    rw [length_append, length_singleton]
    by_cases old : j < r.specTokens.length
    · rw [getElem?_append_left old] at inside
      have on := going token (mem_of_getElem? inside)
      rw [stop] at on
      cases on
    · have bound := (List.getElem?_eq_some_iff.mp inside).choose
      rw [length_append, length_singleton] at bound
      omega

namespace DraftModel

variable {d : DraftModel M}

/-- The requests that a call drafts for, after `round` proposals: those in `active` get
more. The proposals of a request are the right ones if it was `fresh`. -/
structure Waiting (reqs : List Nat) (fresh : Nat → Prop) (round : Nat) (d : DraftModel M)
    (active : List Nat) : Prop where
  once : active.Nodup
  listed : ∀ id ∈ active, id ∈ reqs
  present : ∀ id ∈ active, ∃ r ∈ d.requests, r.id = id
  room : ∀ r ∈ d.requests, r.id ∈ reqs → r.HasCells d.nDraft
  caught : ∀ r ∈ d.requests, r.id ∈ reqs → r.draftComputed = r.nTokens
  length : ∀ r ∈ d.requests, r.id ∈ active → r.specTokens.length = round
  short : ∀ r ∈ d.requests, r.id ∈ reqs → r.specTokens.length ≤ round
  going : ∀ r ∈ d.requests, r.id ∈ active → ∀ token ∈ r.specTokens, M.isEog token = false
  proposes : ∀ r ∈ d.requests, r.id ∈ reqs → fresh r.id → r.Proposes M
  stopped : ∀ r ∈ d.requests, r.id ∈ reqs → fresh r.id → r.id ∉ active →
    ∃ token, r.specTokens.getLast? = some token ∧ M.isEog token = true

section

variable (waiting : Waiting reqs fresh round d active) (positive : 0 < round)
    (rounds : round < d.nDraft)

include waiting positive rounds

/-- A request gets its token in the batch of the round. -/
theorem Decoding.feed {done : List Nat} {ub : Batch} (inv : Decoding reqs round d done ub)
    (member : r ∈ d.requests) (here : r.id ∈ active) (absent : r.id ∉ done) :
    Decoding reqs round d (done ++ [r.id]) (d.enqueueDraft round ub r.id) := by
  have sound := inv.sound
  have listed := waiting.listed r.id here
  have length := waiting.length r member here
  have caught := waiting.caught r member listed
  have room := waiting.room r member listed
  have feeds := enqueueDraft_feeds positive (sound.find member) length ub
  have size : r.fed.length = r.nTokens + round := by
    rw [DraftRequest.fed, length_append, length]
    rfl
  have before : fedAhead reqs done r = round - 1 := by
    rw [fedAhead, if_neg absent, drafted, if_pos listed, length]
  have after : fedAhead reqs (done ++ [r.id]) r = round := by
    rw [fedAhead, if_pos (mem_append_right _ mem_cons_self), length]
  have start : r.draftComputed + fedAhead reqs done r = r.nTokens + round - 1 := by omega
  refine ⟨?_, ?_, ?_, ?_⟩
  · obtain ⟨layout, exact⟩ := sound.place member
    have table := r.seqInfo_cells (fedAhead reqs done) d.pool r.fed.length
    have computed : (r.seat (fedAhead reqs done)).computed = r.nTokens + round - 1 := start
    have within : (r.seat (fedAhead reqs done)).computed + 1 ≤ r.fed.length := by
      rw [computed, size]
      omega
    have high : (r.seat (fedAhead reqs done)).computed + 1 ≤
        (r.seat (fedAhead reqs done)).kv.blockIds.length * d.pool.blockSize := by
      unfold DraftRequest.HasCells at room
      change _ ≤ r.draftKv.blockIds.length * _
      rw [computed, sound.size]
      omega
    obtain ⟨layout, kept⟩ := layout.feed table rfl within high within
    have moved : ({ r.seat (fedAhead reqs done) with
        computed := (r.seat (fedAhead reqs done)).computed + 1 } : Seat) =
        r.seat (fedAhead reqs (done ++ [r.id])) := by
      have whole : r.nTokens + round - 1 + 1 =
          r.draftComputed + fedAhead reqs (done ++ [r.id]) r := by omega
      rw [computed, whole]
      rfl
    rw [moved, computed] at layout kept
    have others : ∀ other ∈ d.requests, other.id ≠ r.id →
        fedAhead reqs (done ++ [r.id]) other = fedAhead reqs done other := by
      intro other _ different
      simp [fedAhead, different]
    have next := sound.store member rfl sound.size (sound.uncached r member)
      (sound.caught r member) others layout (kept exact)
    change (d.store r).Sound _ _ at next
    rw [store_self sound.unique member] at next
    rw [feeds.write inv.owned.formed]
    exact next
  · refine inv.owned.feed member feeds ?_ rfl
    rw [size, show r.nTokens + round - 1 + 1 = r.nTokens + round by omega]
  · intro cells
    rw [feeds.outputs inv.owned.formed, inv.outputs, map_append, map_singleton,
      map_singleton, rowOf, sound.find member]
    dsimp only
    rw [r.getLastD_fed length positive, size, show r.nTokens + round - 1 + 1 = r.nTokens + round by
      omega]
  · intro token inside
    rw [feeds.tokens] at inside
    rcases mem_append.mp inside with old | new
    · obtain ⟨other, known, early, slot⟩ := inv.slots token old
      exact ⟨other, known, mem_append_left _ early, slot⟩
    · rw [range'_one, map_singleton, mem_singleton] at new
      rw [new]
      exact ⟨r, member, mem_append_right _ mem_cons_self, rfl⟩

theorem Decoding.feedAll {done rest : List Nat} {ub : Batch} (inv : Decoding reqs round d done ub)
    (once : (done ++ rest).Nodup)
    (present : ∀ id ∈ rest, id ∈ active ∧ ∃ r ∈ d.requests, r.id = id) :
    Decoding reqs round d (done ++ rest) (rest.foldl (d.enqueueDraft round) ub) := by
  induction rest generalizing done ub with
  | nil =>
    rw [append_nil]
    exact inv
  | cons id rest ih =>
    obtain ⟨here, r, member, rfl⟩ := present id mem_cons_self
    have absent : r.id ∉ done := by
      intro inside
      exact (nodup_append.mp once).2.2 _ inside _ mem_cons_self rfl
    rw [append_cons] at once ⊢
    exact ih (inv.feed waiting positive rounds member here absent) once
      (fun other inside => present other (mem_cons_of_mem _ inside))

/-- The batch of a round. -/
theorem decoding (sound : d.Sound d.cells (drafted reqs)) :
    Decoding reqs round d active (active.foldl (d.enqueueDraft round) {}) := by
  have ahead : fedAhead reqs [] = drafted reqs := by
    funext r
    simp [fedAhead]
  have start : Decoding reqs round d [] {} := by
    refine ⟨?_, .empty _ _, fun _ => rfl, nofun⟩
    rw [ahead]
    exact sound
  exact start.feedAll waiting positive rounds waiting.once
    (fun id inside => ⟨inside, waiting.present id inside⟩)

end

/-- The rows of a round have been computed: what was fed is written, and the row of a request
is the one behind all it was fed. -/
structure Filled (reqs : List Nat) (fresh : Nat → Prop) (round : Nat) (d : DraftModel M)
    (rows : List (Nat × List M.Logit)) : Prop where
  sound : d.Sound d.cells (fedAhead reqs (rows.map Prod.fst))
  waiting : Waiting reqs fresh round d (rows.map Prod.fst)
  rows : ∀ r ∈ d.requests, fresh r.id → ∀ row, (r.id, row) ∈ rows → row = M.prefixLogits r.fed

/-- The request once the row of a round has been used. -/
def pushed (rows : List (Nat × List M.Logit)) (r : DraftRequest) : DraftRequest :=
  match rows.lookup r.id with
  | some row => { r with specTokens := r.specTokens ++ [argmax row] }
  | none => r

theorem pushDrafts_eq (d : DraftModel M) (rows : List (Nat × List M.Logit)) :
    d.pushDrafts rows = ({ d with requests := d.requests.map (pushed rows) },
      (rows.filter (fun entry => M.isEog (argmax entry.2) = false)).map Prod.fst) := rfl

/-- A request with a row gets a token, the others stay. -/
theorem pushed_cases (rows : List (Nat × List M.Logit)) (r : DraftRequest) :
    (∃ row, (r.id, row) ∈ rows ∧
      pushed rows r = { r with specTokens := r.specTokens ++ [argmax row] }) ∨
    (r.id ∉ rows.map Prod.fst ∧ pushed rows r = r) := by
  unfold pushed
  cases found : rows.lookup r.id with
  | none =>
    refine .inr ⟨?_, rfl⟩
    intro inside
    obtain ⟨entry, member, same⟩ := mem_map.mp inside
    have different := lookup_eq_none_iff.mp found entry member
    simp [same] at different
  | some row =>
    obtain ⟨front, back, shape, _⟩ := lookup_eq_some_iff.mp found
    exact .inl ⟨row, by simp [shape], rfl⟩

theorem pushed_id (rows : List (Nat × List M.Logit)) (r : DraftRequest) :
    (pushed rows r).id = r.id := by
  rcases pushed_cases rows r with ⟨_, _, same⟩ | ⟨_, same⟩ <;> rw [same]

theorem pushed_respecs (listed : ∀ id ∈ rows.map Prod.fst, id ∈ reqs) (r : DraftRequest) :
    r.Respecs reqs (pushed rows r) := by
  rcases pushed_cases rows r with ⟨row, here, same⟩ | ⟨_, same⟩
  · rw [same]
    exact ⟨rfl, fun absent => absurd (listed r.id (mem_map.mpr ⟨_, here, rfl⟩)) absent⟩
  · rw [same]
    exact .refl reqs r

/-- The requests that go on are those whose new token is not the end. -/
theorem mem_going (once : (rows.map Prod.fst).Nodup) {id : Nat} {row : List M.Logit}
    (member : (id, row) ∈ rows) :
    id ∈ (rows.filter (fun entry => M.isEog (argmax entry.2) = false)).map Prod.fst ↔
      M.isEog (argmax row) = false := by
  constructor
  · intro inside
    obtain ⟨entry, kept, same⟩ := mem_map.mp inside
    obtain ⟨here, going⟩ := mem_filter.mp kept
    have equal := inj_on_of_nodup_map once here member same
    rw [equal] at going
    simpa using going
  · intro going
    exact mem_map.mpr ⟨(id, row), mem_filter.mpr ⟨member, by simpa using going⟩, rfl⟩

/-- Every request with a row gets the best token of it. -/
theorem Filled.push (filled : Filled reqs fresh round d rows) :
    (d.pushDrafts rows).1.Sound d.cells (drafted reqs) ∧
      Waiting reqs fresh (round + 1) (d.pushDrafts rows).1 (d.pushDrafts rows).2 := by
  have sound := filled.sound
  have waiting := filled.waiting
  have sub : ((rows.filter (fun entry => M.isEog (argmax entry.2) = false)).map Prod.fst).Sublist
    (rows.map Prod.fst) := filter_sublist.map _
  rw [pushDrafts_eq]
  dsimp only
  have inRows : ∀ {id : Nat} {row : List M.Logit}, (id, row) ∈ rows → id ∈ rows.map Prod.fst :=
    fun member => mem_map.mpr ⟨_, member, rfl⟩
  constructor
  · apply sound.revise
    intro r member
    rcases pushed_cases rows r with ⟨row, here, same⟩ | ⟨absent, same⟩
    · have listed := waiting.listed r.id (inRows here)
      have before : fedAhead reqs (rows.map Prod.fst) r = r.specTokens.length := by
        rw [fedAhead, if_pos (inRows here)]
      have after : drafted reqs { r with specTokens := r.specTokens ++ [argmax row] } =
          r.specTokens.length := by
        rw [drafted, if_pos listed, length_append]
        rfl
      have caught := waiting.caught r member listed
      have length : r.fed.length = r.draftComputed + r.specTokens.length := by
        rw [DraftRequest.fed, length_append, caught]
        rfl
      have fed : ({ r with specTokens := r.specTokens ++ [argmax row] } : DraftRequest).fed =
          r.fed ++ [argmax row] := by
        rw [DraftRequest.fed, DraftRequest.fed, append_assoc]
      rw [same]
      refine ⟨rfl, rfl, prefix_refl _, sound.caught r member, ?_, ?_, ?_⟩
      · rw [before, after]
      · rw [after, fed, length_append]
        dsimp only
        omega
      · rw [after, fed]
        dsimp only
        rw [take_append_of_le_length (Nat.le_of_eq length.symm)]
    · have ahead : drafted reqs r = fedAhead reqs (rows.map Prod.fst) r := by
        rw [fedAhead, if_neg absent]
      have fits := (sound.layout.valid _ (mem_map_of_mem member)).fits
      rw [same]
      refine ⟨rfl, rfl, prefix_refl _, sound.caught r member, ?_, ?_, rfl⟩
      · rw [ahead]
      · rw [ahead]
        exact fits
  · refine ⟨waiting.once.sublist sub, fun id inside => waiting.listed id (sub.subset inside), ?_, ?_,
      ?_, ?_, ?_, ?_, ?_, ?_⟩
    · intro id inside
      obtain ⟨r, member, same⟩ := waiting.present id (sub.subset inside)
      exact ⟨pushed rows r, mem_map_of_mem member, (pushed_id rows r).trans same⟩
    all_goals
      intro last inside
      obtain ⟨r, member, rfl⟩ := mem_map.mp inside
      rcases pushed_cases rows r with ⟨row, here, same⟩ | ⟨absent, same⟩
    all_goals rw [same]
    · exact fun listed => waiting.room r member listed
    · exact fun listed => waiting.room r member listed
    · exact fun listed => waiting.caught r member listed
    · exact fun listed => waiting.caught r member listed
    · intro _
      rw [length_append, waiting.length r member (inRows here)]
      rfl
    · intro active
      exact absurd (sub.subset active) absent
    · intro listed
      rw [length_append]
      exact Nat.succ_le_succ (waiting.short r member listed)
    · intro listed
      exact Nat.le_succ_of_le (waiting.short r member listed)
    · intro active token spec
      rcases mem_append.mp spec with old | new
      · exact waiting.going r member (inRows here) token old
      · rw [mem_singleton.mp new]
        exact (mem_going waiting.once here).mp active
    · intro active
      exact absurd (sub.subset active) absent
    · intro listed grown
      rw [filled.rows r member grown row here]
      exact (waiting.proposes r member listed grown).push (waiting.going r member (inRows here))
    · intro listed grown
      exact waiting.proposes r member listed grown
    · intro listed grown ended
      refine ⟨argmax row, by simp, ?_⟩
      have stop := fun on => ended ((mem_going waiting.once here).mpr on)
      simpa using stop
    · intro listed grown _
      exact waiting.stopped r member listed grown absent

section

variable (waiting : Waiting reqs fresh round d active) (sound : d.Sound d.cells (drafted reqs))
    (positive : 0 < round) (rounds : round < d.nDraft)

include waiting sound positive rounds

/-- A round is computed. -/
theorem Waiting.run :
    ∃ next logits, d.run active (active.foldl (d.enqueueDraft round) {}) none =
        (next, .ok logits) ∧ next.requests = d.requests ∧ next.nDraft = d.nDraft ∧
      Filled reqs fresh round next (active.zip logits) := by
  have decoded := decoding waiting positive rounds sound
  refine ⟨_, _, rfl, rfl, rfl, ?_⟩
  generalize active.foldl (d.enqueueDraft round) {} = ub at decoded
  have rows : active.zip (ub.logits (ub.write d.cells)) = active.map (fun id =>
      (id, M.logits (d.rowOf (ub.write d.cells) id).1 (d.rowOf (ub.write d.cells) id).2)) := by
    have both := zip_map' (f := fun id : Nat => id) (g := fun id =>
      M.logits (d.rowOf (ub.write d.cells) id).1 (d.rowOf (ub.write d.cells) id).2) (l := active)
    rw [map_id'] at both
    rw [Batch.logits, decoded.outputs, map_map]
    exact both
  have ids : (active.zip (ub.logits (ub.write d.cells))).map Prod.fst = active := by
    rw [rows, map_map]
    exact map_id' _
  refine ⟨?_, ?_, ?_⟩
  · rw [ids]
    exact decoded.sound.log decoded.owned _
  · rw [ids]
    exact { waiting with }
  intro r member _ row inside
  rw [rows] at inside
  obtain ⟨id, here, same⟩ := mem_map.mp inside
  obtain ⟨rfl, rfl⟩ := Prod.mk.inj same
  obtain ⟨layout, exact⟩ := decoded.sound.place member
  have listed := waiting.listed r.id here
  have length := waiting.length r member here
  have computed : r.fed.length ≤ (r.seat (fedAhead reqs active)).computed := by
    change _ ≤ r.draftComputed + fedAhead reqs active r
    rw [fedAhead, if_pos here, waiting.caught r member listed, DraftRequest.fed, length_append]
    exact Nat.le_refl _
  have read := layout.context exact (r.seqInfo_cells (fedAhead reqs active) d.pool _)
    (Nat.le_refl _) computed
  have last : r.specTokens.getLastD 0 = r.fed.getLastD 0 := by
    have some : r.specTokens ≠ [] := by
      intro none
      rw [none] at length
      exact Nat.ne_of_lt positive length
    rw [DraftRequest.fed, getLastD_eq_getLast?, getLastD_eq_getLast?,
      getLast?_append_of_ne_nil _ some]
  rw [rowOf, decoded.sound.find member]
  dsimp only
  rw [read, last]
  change M.logits (M.cacheOf (r.fed.take r.fed.length)) _ = _
  rw [take_length]
  rfl

/-- A round fails: the cells it spoils are behind everything that counts. -/
theorem Waiting.fail (count : Nat) :
    ∃ next, d.run active (active.foldl (d.enqueueDraft round) {}) (some count) =
        (next, .threw "draft: compute failed") ∧ next.requests = d.requests ∧
      next.nDraft = d.nDraft ∧ next.Sound next.cells (drafted reqs) := by
  have decoded := decoding waiting positive rounds sound
  refine ⟨_, rfl, rfl, rfl, ?_⟩
  generalize active.foldl (d.enqueueDraft round) {} = ub at decoded
  have unused : ∀ token ∈ ub.tokens.take count,
      ∃ seat ∈ d.requests.map (DraftRequest.seat (drafted reqs)), ∃ pos, seat.computed ≤ pos ∧
        pos < seat.kv.blockIds.length * d.pool.blockSize ∧
        token.slot = d.pool.cellOf seat.kv pos := by
    intro token inside
    obtain ⟨r, member, here, slot⟩ := decoded.slots token (mem_of_mem_take inside)
    have listed := waiting.listed r.id here
    have room := waiting.room r member listed
    refine ⟨_, mem_map_of_mem member, _, ?_, ?_, slot⟩
    · change r.draftComputed + drafted reqs r ≤ _
      rw [drafted, if_pos listed, waiting.length r member here, waiting.caught r member listed]
      omega
    · change _ < r.draftKv.blockIds.length * _
      unfold DraftRequest.HasCells at room
      rw [sound.size]
      omega
  obtain ⟨layout, exact⟩ := Layout.spoil unused sound.layout
  have spoiled : d.Sound (Engine.spoil d.cells (ub.tokens.take count)) (drafted reqs) :=
    { sound with layout := layout, exact := exact sound.exact }
  exact spoiled.log decoded.owned _

end

/-- The proposals of a call. -/
structure DraftedFor (reqs : List Nat) (fresh : Nat → Prop) (next : DraftModel M) : Prop where
  caught : ∀ r ∈ next.requests, r.id ∈ reqs → r.draftComputed = r.nTokens
  proposes : ∀ r ∈ next.requests, r.id ∈ reqs → fresh r.id → r.Proposes M
  short : ∀ r ∈ next.requests, r.id ∈ reqs → r.specTokens.length ≤ next.nDraft
  ended : ∀ r ∈ next.requests, r.id ∈ reqs → fresh r.id → r.specTokens.length = next.nDraft ∨
    ∃ token, r.specTokens.getLast? = some token ∧ M.isEog token = true

theorem Waiting.draftedFor (waiting : Waiting reqs fresh round d active) (most : round ≤ d.nDraft)
    (ended : round = d.nDraft ∨ active = []) : DraftedFor reqs fresh d := by
  refine ⟨waiting.caught, waiting.proposes, ?_, ?_⟩
  · intro r member listed
    exact Nat.le_trans (waiting.short r member listed) most
  intro r member listed grown
  by_cases here : r.id ∈ active
  · rcases ended with last | none
    · exact .inl ((waiting.length r member here).trans last)
    · rw [none] at here
      cases here
  · exact .inr (waiting.stopped r member listed grown here)

/-- The decode rounds: the proposals are there unless a round has failed. -/
structure RoundsDone (reqs : List Nat) (fresh : Nat → Prop) (fault : Option DraftFault)
    (d next : DraftModel M) (result : Outcome Unit) : Prop where
  sound : next.Sound next.cells (drafted reqs)
  nDraft : next.nDraft = d.nDraft
  requests : ∀ last ∈ next.requests, ∃ r ∈ d.requests, r.Respecs reqs last
  result : result = .ok () ∧ DraftedFor reqs fresh next ∨
    result = .threw "draft: compute failed" ∧ fault ≠ none

theorem rounds_spec {left : Nat} (fault : Option DraftFault)
    (waiting : Waiting reqs fresh round d active) (sound : d.Sound d.cells (drafted reqs))
    (positive : 0 < round) (bound : round + left = d.nDraft) :
    ∃ next result, d.rounds fault left round active = (next, result) ∧
      RoundsDone reqs fresh fault d next result := by
  induction left generalizing d round active with
  | zero =>
    refine ⟨d, .ok (), rfl, sound, rfl, ?_, .inl ⟨rfl, waiting.draftedFor (by omega) (.inl ?_)⟩⟩
    · exact fun r member => ⟨r, member, .refl reqs r⟩
    · omega
  | succ left ih =>
    rw [rounds]
    by_cases none : active = []
    · rw [if_pos (List.isEmpty_iff.mpr none)]
      refine ⟨d, .ok (), rfl, sound, rfl, ?_, .inl ⟨rfl, waiting.draftedFor (by omega) (.inr none)⟩⟩
      exact fun r member => ⟨r, member, .refl reqs r⟩
    · rw [if_neg (by simpa using none)]
      cases failure : DraftFault.inRound round fault with
      | some count =>
        obtain ⟨next, ran, requests, nDraft, after⟩ := waiting.fail sound positive (by omega) count
        rw [ran]
        refine ⟨next, _, rfl, after, nDraft, ?_, .inr ⟨rfl, ?_⟩⟩
        · rw [requests]
          exact fun r member => ⟨r, member, .refl reqs r⟩
        · rintro rfl
          cases failure
      | none =>
        obtain ⟨mid, logits, ran, requests, nDraft, filled⟩ := waiting.run sound positive (by omega)
        obtain ⟨after, again⟩ := filled.push
        rw [ran]
        dsimp only
        obtain ⟨next, result, shape, finished⟩ := ih again after (Nat.succ_pos _)
          (show round + 1 + left = mid.nDraft by omega)
        refine ⟨next, result, shape, finished.sound, finished.nDraft.trans nDraft, ?_,
          finished.result⟩
        intro last member
        obtain ⟨r', inside, second⟩ := finished.requests last member
        obtain ⟨r, here, rfl⟩ := mem_map.mp inside
        rw [requests] at here
        exact ⟨r, here, (pushed_respecs filled.waiting.listed r).trans second⟩

end DraftModel

end Iian
