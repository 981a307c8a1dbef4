import Iian.DraftLayout
import Mathlib.Data.List.GetD

/- The first half of a `draft` call: which requests it takes, and the batches that feed them
the tokens they are behind. -/
namespace Iian

open List Lib

open DraftRequest (settled)

variable {M : Model}

/-- What the first loop of a call makes of a request; `reqs` are those of `ids` it keeps. -/
structure DraftRequest.Admits (nDraft : Nat) (ids reqs : List Nat) (r next : DraftRequest) :
    Prop where
  same : r.Same next
  epoch : next.draftEpoch = r.draftEpoch ∨ next.draftEpoch = r.numPreemptions
  other : r.id ∉ ids → next = r
  cells : r.id ∈ reqs → next.HasCells nDraft
  fresh : r.id ∈ reqs → r.Fresh → next.draftComputed < next.nTokens
  kept : r.id ∈ ids → r.Draftable → next.HasCells nDraft → r.id ∈ reqs

/-- The request keeps all but the number of its tokens that the draft model has seen. -/
structure DraftRequest.Advances (reqs : List Nat) (r next : DraftRequest) : Prop where
  shape : next = { r with draftComputed := next.draftComputed }
  other : r.id ∉ reqs → next = r

variable {ub : Batch} {pool : BlockPool} {r : DraftRequest}

theorem Batch.withRow_of_ne (filled : ub.outIds ≠ []) : ub.withRow = ub := by
  unfold withRow
  simp [filled]

theorem Batch.withRow_write (ub : Batch) (cells : Cells M) :
    ub.withRow.write cells = ub.write cells := by
  unfold withRow
  split <;> rfl

/-- The row nobody reads is one of the batch. -/
theorem Batch.Owned.withRow {requests : List DraftRequest} {inBatch : List Nat}
    (owned : Owned pool requests inBatch ub) (filled : 0 < ub.tokens.length) :
    Owned pool requests inBatch ub.withRow := by
  unfold Batch.withRow
  split
  · exact ⟨⟨owned.formed.seqs, by simpa using filled⟩, owned.seqs, owned.tokens⟩
  · exact owned

/-- Row `row` of the batch is the one of the last token of the request. -/
def LastRow (M : Model) (pool : BlockPool) (ub : Batch) (r : DraftRequest) (row : Nat) : Prop :=
  ∀ cells : Cells M, (ub.outputs cells)[row]? = some
    (Batch.context cells
      { cells := (List.range r.nTokens).map (pool.cellOf r.draftKv), fed := r.fed } r.nTokens,
      r.fed.getD (r.nTokens - 1) 0)

/-- How far the logits behind the last token of a request are: its tokens have not all been
fed, or the row is in the batch that is being assembled, or it has been read. -/
inductive Reading (M : Model) (pool : BlockPool) (c : CatchUp)
    (lastLogits : Nat → Option (List M.Logit)) (r : DraftRequest) : Prop
  | waiting (unset : c.lastRow r.id = none) (unread : lastLogits r.id = none)
      (behind : r.draftComputed < r.nTokens)
  | batched (row : Nat) (here : r.id ∈ c.inBatch) (unread : lastLogits r.id = none)
      (last : c.lastRow r.id = some row) (filled : 0 < r.nTokens)
      (caught : r.draftComputed = r.nTokens) (found : LastRow M pool c.ub r row)
  | read (logits : lastLogits r.id = some (M.prefixLogits r.tokens))
      (caught : r.draftComputed = r.nTokens)

namespace CatchUp

variable (c : CatchUp) (pool : BlockPool) (r : DraftRequest) (nNew : Nat)

theorem feed_lastRow_other {id : Nat} (other : id ≠ r.id) :
    (c.feed pool r nNew).lastRow id = c.lastRow id := by
  unfold feed
  dsimp only
  split
  · exact Function.update_of_ne other _ _
  · rfl

variable {r : DraftRequest} {nNew : Nat}

theorem feed_lastRow_last (last : r.draftComputed + nNew = r.nTokens) :
    (c.feed pool r nNew).lastRow r.id = some c.ub.outIds.length := by
  unfold feed
  dsimp only
  rw [if_pos last]
  exact Function.update_self _ _ _

theorem feed_lastRow_more (more : r.draftComputed + nNew ≠ r.nTokens) :
    (c.feed pool r nNew).lastRow = c.lastRow := by
  unfold feed
  dsimp only
  rw [if_neg more]

/-- The rows a request gets in a catch-up batch: one, with its last token. -/
def rowsOf (r : DraftRequest) (nNew : Nat) : List Nat :=
  if r.draftComputed + nNew = r.nTokens then [r.nTokens - 1] else []

theorem feed_feeds (positive : 0 < nNew) (fits : r.draftComputed + nNew ≤ r.nTokens) :
    Batch.Feeds pool r.draftKv (r.seqInfo pool (r.draftComputed + nNew)) r.draftComputed nNew
      (rowsOf r nNew) c.ub (c.feed pool r nNew).ub := by
  have tokens : (c.feed pool r nNew).ub.tokens = c.ub.tokens ++
      (List.range' r.draftComputed nNew).map (fun pos =>
        { token := r.fed.getD pos 0, pos := pos, seqIdx := c.ub.seqs.length,
          slot := pool.cellOf r.draftKv pos }) := by
    unfold feed
    dsimp only
    congr 1
    apply map_congr_left
    intro pos range
    rw [mem_range'_1] at range
    have inside : pos < r.tokens.length := Nat.lt_of_lt_of_le range.2 fits
    rw [DraftRequest.fed, getD_append _ _ _ _ inside]
  refine ⟨tokens, rfl, ?_, ?_⟩
  · unfold feed rowsOf
    dsimp only
    by_cases last : r.draftComputed + nNew = r.nTokens
    · rw [if_pos last, if_pos last, length_append, length_map, length_range',
        map_singleton, show c.ub.tokens.length + nNew - 1 =
          c.ub.tokens.length + (r.nTokens - 1 - r.draftComputed) by omega]
    · rw [if_neg last, if_neg last, map_nil, append_nil]
  · intro pos member
    unfold rowsOf at member
    split at member
    · rw [mem_singleton] at member
      omega
    · cases member

end CatchUp

/-- More sequences do not move the rows. -/
theorem LastRow.feed {kv : KVRequestState} {seq : SeqInfo} {start count : Nat} {rows : List Nat}
    {next : Batch} {row : Nat} (found : LastRow M pool ub r row) (formed : ub.WellFormed)
    (feeds : Batch.Feeds pool kv seq start count rows ub next) :
    LastRow M pool next r row := by
  intro cells
  have old := found cells
  have inside := (List.getElem?_eq_some_iff.mp old).choose
  rw [feeds.outputs formed, getElem?_append_left inside, old]

/-- The row of a request whose last token is put into the batch. -/
theorem LastRow.last {c : CatchUp} {nNew computed : Nat} (formed : c.ub.WellFormed)
    (positive : 0 < nNew) (last : r.draftComputed + nNew = r.nTokens) :
    LastRow M pool (c.feed pool r nNew).ub { r with draftComputed := computed }
      c.ub.outIds.length := by
  intro cells
  have feeds := c.feed_feeds pool positive (Nat.le_of_eq last)
  rw [feeds.outputs formed, ← Batch.outputs_length c.ub cells,
    getElem?_append_right (Nat.le_refl _), Nat.sub_self, CatchUp.rowsOf, if_pos last, last]
  have end_ : r.nTokens - 1 + 1 = r.nTokens := by omega
  rw [map_singleton, end_]
  rfl

namespace DraftModel

variable {d : DraftModel M} {ids : List Nat}

/-- The first loop of a call keeps `reqs` of the requests `ids`. -/
structure Admission (d : DraftModel M) (ids : List Nat) (next : DraftModel M) (reqs : List Nat) :
    Prop where
  sound : next.Sound d.cells settled
  nDraft : next.nDraft = d.nDraft
  cells : next.cells = d.cells
  sublist : reqs.Sublist ids
  count : next.requests.length = d.requests.length
  known : ∀ id ∈ reqs, id < d.requests.length
  requests : ∀ last ∈ next.requests, ∃ r ∈ d.requests, r.Admits d.nDraft ids reqs last

/-- A request that is not drafted for. -/
theorem Admission.idle (sound : d.Sound d.cells settled) {id : Nat}
    (idle : ∀ r ∈ d.requests, r.id = id → ¬ r.Draftable) : Admission d [id] d [] := by
  refine ⟨sound, rfl, rfl, nil_sublist _, rfl, nofun, ?_⟩
  intro r member
  refine ⟨r, member, .refl r, .inl rfl, fun _ => rfl, nofun, nofun, ?_⟩
  intro here draftable
  exact absurd draftable (idle r member (mem_singleton.mp here))

/-- The request of a turn gets a new state. -/
theorem Admission.turn {pool : BlockPool} {r last : DraftRequest} {reqs : List Nat}
    (known : r.id < d.requests.length) (member : r ∈ d.requests)
    (sound : ({ d with pool := pool }.store last).Sound d.cells settled)
    (sublist : reqs.Sublist [r.id]) (admits : r.Admits d.nDraft [r.id] reqs last) :
    Admission d [r.id] ({ d with pool := pool }.store last) reqs := by
  refine ⟨sound, rfl, rfl, sublist, store_length _ _, ?_, ?_⟩
  · intro id inside
    rw [mem_singleton.mp (sublist.subset inside)]
    exact known
  intro next inside
  rcases mem_store inside with rfl | ⟨old, different⟩
  · exact ⟨r, member, admits⟩
  rw [admits.same.id] at different
  have absent : next.id ∉ [r.id] := by simpa using different
  exact ⟨next, old, .refl next, .inl rfl, fun _ => rfl,
    fun here => absurd (sublist.subset here) absent,
    fun here => absurd (sublist.subset here) absent, fun here => absurd here absent⟩

theorem admitOne_spec (sound : d.Sound d.cells settled) (id : Nat) :
    ∃ next kept, d.admitOne id = (next, kept) ∧
      Admission d [id] next (if kept then [id] else []) := by
  unfold admitOne
  cases found : d.find id with
  | none =>
    exact ⟨d, false, rfl, .idle sound (fun r member same => absurd same (find_none found member))⟩
  | some r =>
    obtain ⟨member, rfl⟩ := find_some found
    have only : ∀ other ∈ d.requests, other.id = r.id → other = r := by
      intro other inside same
      exact inj_on_of_nodup_map sound.unique inside member same
    dsimp only
    by_cases flagged : (r.isFinished || r.isEmbedding || r.grammar) = true
    · rw [if_pos flagged]
      refine ⟨d, false, rfl, .idle sound ?_⟩
      intro other inside same draftable
      rw [only other inside same] at draftable
      simp [draftable.isFinished, draftable.isEmbedding, draftable.grammar] at flagged
    by_cases prefilling : r.numComputedTokens + 1 ≠ r.nTokens
    · rw [if_neg flagged, if_pos prefilling]
      refine ⟨d, false, rfl, .idle sound ?_⟩
      intro other inside same draftable
      rw [only other inside same] at draftable
      exact prefilling draftable.computed
    rw [if_neg flagged, if_neg prefilling]
    have positive : 0 < r.nTokens := by omega
    obtain ⟨layout, exact⟩ := sound.place member
    obtain ⟨pool, mid, shape, size, same, epoch, uncached, caught, fresh, layout, exact⟩ :=
      DraftRequest.resync_spec layout exact (sound.uncached r member) (sound.caught r member)
    rw [sound.size] at size
    rw [shape]
    dsimp only
    rcases DraftRequest.allocate_spec layout exact size uncached d.nDraft with
      ⟨refused, few⟩ | ⟨kv, final, granted, size, uncached, room, layout, exact⟩
    · rw [refused]
      have revised : mid.Revises settled settled { mid with specTokens := [] } :=
        .real rfl rfl (prefix_refl _) (Nat.le_refl _) caught
      obtain ⟨layout, kept⟩ := layout.revise (revised.seat uncached _)
      have key : ({ mid with specTokens := [] } : DraftRequest).id = r.id := same.id
      have after := sound.store member key size uncached caught (fun _ _ _ => rfl) layout
        (kept exact)
      refine ⟨_, false, rfl, .turn (sound.id_lt member) member after (nil_sublist _)
        ⟨?_, .inr epoch, by simp, nofun, nofun, ?_⟩⟩
      · exact same.trans ⟨rfl, rfl, rfl, rfl, rfl, rfl, rfl⟩
      · intro _ _ enough
        exact absurd enough few
    · rw [granted]
      have key : ({ mid with draftKv := kv } : DraftRequest).id = r.id := same.id
      have after := sound.store member key size uncached caught (fun _ _ _ => rfl) layout exact
      refine ⟨_, true, rfl, .turn (sound.id_lt member) member after (List.Sublist.refl _)
        ⟨?_, .inr epoch, by simp, ?_, ?_, ?_⟩⟩
      · exact same.trans ⟨rfl, rfl, rfl, rfl, rfl, rfl, rfl⟩
      · exact fun _ => room
      · exact fun _ grown => fresh grown positive
      · exact fun here _ _ => here

/-- The turns of different requests do not touch each other. -/
theorem Admission.cons {mid last : DraftModel M} {id : Nat} {ids first reqs : List Nat}
    (head : Admission d [id] mid first) (tail : Admission mid ids last reqs) (absent : id ∉ ids) :
    Admission d (id :: ids) last (first ++ reqs) := by
  have sound := tail.sound
  rw [head.cells] at sound
  refine ⟨sound, tail.nDraft.trans head.nDraft, tail.cells.trans head.cells,
    head.sublist.append tail.sublist, tail.count.trans head.count, ?_, ?_⟩
  · intro other inside
    rcases mem_append.mp inside with here | there
    · exact head.known other here
    · exact head.count ▸ tail.known other there
  intro final member
  obtain ⟨next, inside, second⟩ := tail.requests final member
  obtain ⟨r, here, start⟩ := head.requests next inside
  rw [head.nDraft] at second
  refine ⟨r, here, ?_⟩
  have key := start.same.id
  have same := start.same.trans second.same
  by_cases mine : r.id = id
  · have later : r.id ∉ ids := by rw [mine]; exact absent
    have unkept : r.id ∉ reqs := fun inside => later (tail.sublist.subset inside)
    have kept : final = next := second.other (by rw [key]; exact later)
    have own : r.id ∈ [id] := mem_singleton.mpr mine
    have chosen : r.id ∈ first ++ reqs ↔ r.id ∈ first := by simp [unkept]
    rw [kept] at same ⊢
    exact ⟨same, start.epoch, fun outside => absurd (mem_cons.mpr (.inl mine)) outside,
      fun here => start.cells (chosen.mp here), fun here => start.fresh (chosen.mp here),
      fun _ draftable enough => chosen.mpr (start.kept own draftable enough)⟩
  · have outside : r.id ∉ [id] := by simpa using mine
    have unkept : r.id ∉ first := fun inside => outside (head.sublist.subset inside)
    have kept : next = r := start.other outside
    have chosen : r.id ∈ first ++ reqs ↔ r.id ∈ reqs := by simp [unkept]
    have among : r.id ∈ id :: ids ↔ r.id ∈ ids := by simp [mine]
    rw [kept] at second
    exact ⟨same, second.epoch, fun absent => second.other (fun inside => absent (among.mpr inside)),
      fun here => second.cells (chosen.mp here), fun here => second.fresh (chosen.mp here),
      fun here draftable enough =>
        chosen.mpr (second.kept (among.mp here) draftable enough)⟩

/-- The first loop of a call. -/
theorem admitAll_spec (sound : d.Sound d.cells settled) (once : ids.Nodup) :
    ∃ next reqs, d.admitAll ids = (next, reqs) ∧ Admission d ids next reqs := by
  induction ids generalizing d with
  | nil =>
    refine ⟨d, [], rfl, sound, rfl, rfl, List.Sublist.refl _, rfl, nofun, ?_⟩
    intro r member
    exact ⟨r, member, .refl r, .inl rfl, fun _ => rfl, nofun, nofun, nofun⟩
  | cons id ids ih =>
    rw [nodup_cons] at once
    obtain ⟨mid, kept, first, head⟩ := admitOne_spec sound id
    have middle := head.sound
    rw [← head.cells] at middle
    obtain ⟨last, reqs, rest, tail⟩ := ih middle once.2
    refine ⟨last, if kept then id :: reqs else reqs, ?_, ?_⟩
    · rw [admitAll, first]
      dsimp only
      rw [rest]
    · have both := head.cons tail once.1
      cases kept <;> exact both

/-- The loop that assembles a catch-up batch, begun in the state `start`. `cells` of the
draft cache count as written already. -/
structure Assembling (start : DraftModel M) (reqs : List Nat) (fresh : Nat → Prop)
    (lastLogits : Nat → Option (List M.Logit)) (d : DraftModel M) (c : CatchUp) : Prop where
  sound : d.Sound (c.ub.write d.cells) settled
  owned : c.ub.Owned d.pool d.requests c.inBatch
  nDraft : d.nDraft = start.nDraft
  count : d.requests.length = start.requests.length
  room : ∀ r ∈ d.requests, r.id ∈ reqs → r.HasCells d.nDraft
  requests : ∀ next ∈ d.requests, ∃ r ∈ start.requests, r.Advances reqs next
  reading : ∀ r ∈ d.requests, fresh r.id → Reading M d.pool c lastLogits r
  spent : d.behind + c.used = start.behind
  tokens : c.ub.tokens.length = c.used
  filled : c.inBatch ≠ [] → 0 < c.used

/-- A turn of the loop skips its request, or feeds it. -/
theorem enqueue_cases (d : DraftModel M) (c : CatchUp) (id : Nat) :
    (enqueue (d, c) id = (d, c) ∧ ∀ r, d.find id = some r → c.used < budget →
        r.nTokens ≤ r.draftComputed) ∨
      ∃ r nNew, d.find id = some r ∧ 0 < nNew ∧ r.draftComputed + nNew ≤ r.nTokens ∧
        enqueue (d, c) id = (d.store { r with draftComputed := r.draftComputed + nNew },
          c.feed d.pool r nNew) := by
  unfold enqueue
  dsimp only
  cases found : d.find id with
  | none => exact .inl ⟨rfl, nofun⟩
  | some r =>
    dsimp only
    by_cases full : c.used ≥ budget
    · rw [if_pos full]
      exact .inl ⟨rfl, fun _ _ free => absurd free (Nat.not_lt.mpr full)⟩
    by_cases caught : r.draftComputed ≥ r.nTokens
    · rw [if_neg full, if_pos caught]
      refine .inl ⟨rfl, ?_⟩
      rintro other ⟨⟩ _
      exact caught
    · rw [if_neg full, if_neg caught]
      exact .inr ⟨r, _, rfl, by omega, by omega, rfl⟩

/-- The tokens of a request that are fed are not behind any more. -/
theorem behind_store (sound : (d.requests.map DraftRequest.id).Nodup) {r : DraftRequest}
    (member : r ∈ d.requests) {nNew : Nat} (fits : r.draftComputed + nNew ≤ r.nTokens) :
    (d.store { r with draftComputed := r.draftComputed + nNew }).behind + nNew = d.behind := by
  have before := (Keyed.perm_cons_remove sound member).map
    (fun r : DraftRequest => r.nTokens - r.draftComputed)
  have after := Keyed.replace_map_perm sound member
    (show ({ r with draftComputed := r.draftComputed + nNew } : DraftRequest).id = r.id from rfl)
    (fun _ _ _ => rfl : ∀ y ∈ d.requests, y.id ≠ r.id →
      y.nTokens - y.draftComputed = y.nTokens - y.draftComputed)
  rw [behind, behind, before.sum_nat, store, after.sum_nat, map_cons, sum_cons, sum_cons]
  change r.nTokens - (r.draftComputed + nNew) + _ + nNew = r.nTokens - r.draftComputed + _
  omega

namespace Assembling

variable {start : DraftModel M} {reqs : List Nat} {fresh : Nat → Prop}
  {lastLogits : Nat → Option (List M.Logit)} {c : CatchUp}

variable (inv : Assembling start reqs fresh lastLogits d c)

include inv

/-- A request is fed: its tokens count as seen, and a row is added with the last of them. -/
theorem feed {r : DraftRequest} (member : r ∈ d.requests) (listed : r.id ∈ reqs) {nNew : Nat}
    (positive : 0 < nNew) (fits : r.draftComputed + nNew ≤ r.nTokens) :
    Assembling start reqs fresh lastLogits
      (d.store { r with draftComputed := r.draftComputed + nNew }) (c.feed d.pool r nNew) := by
  have sound := inv.sound
  have formed := inv.owned.formed
  have feeds := c.feed_feeds d.pool positive fits
  have room := inv.room r member listed
  have length : r.nTokens ≤ r.fed.length := by
    rw [DraftRequest.fed, length_append]
    exact Nat.le_add_right _ _
  obtain ⟨layout, exact⟩ := sound.place member
  have high : r.draftComputed + nNew ≤ r.draftKv.blockIds.length * d.pool.blockSize := by
    unfold DraftRequest.HasCells at room
    rw [sound.size]
    omega
  obtain ⟨layout, kept⟩ := layout.feed (r.seqInfo_cells settled d.pool _) rfl
    (Nat.le_refl (r.draftComputed + nNew)) high (Nat.le_trans fits length)
  refine ⟨?_, ?_, inv.nDraft, (store_length _ _).trans inv.count, ?_, ?_, ?_, ?_, ?_, ?_⟩
  · have key : ({ r with draftComputed := r.draftComputed + nNew } : DraftRequest).id = r.id := rfl
    change (d.store _).Sound ((c.feed d.pool r nNew).ub.write d.cells) settled
    rw [feeds.write formed]
    exact sound.store member key sound.size (sound.uncached r member) fits (fun _ _ _ => rfl)
      layout (kept exact)
  · refine (inv.owned.feed member feeds rfl rfl).map ?_
    intro other inside
    by_cases mine : other.id = r.id
    · have same := inj_on_of_nodup_map sound.unique inside member mine
      refine ⟨{ r with draftComputed := r.draftComputed + nNew }, ?_, by rw [same], by rw [same]; rfl,
        by rw [same]⟩
      exact mem_map.mpr ⟨r, member, if_pos rfl⟩
    · exact ⟨other, mem_map.mpr ⟨other, inside, if_neg mine⟩, rfl, rfl, rfl⟩
  · intro other inside here
    rcases mem_store inside with rfl | ⟨old, _⟩
    · exact room
    · exact inv.room other old here
  · intro other inside
    rcases mem_store inside with rfl | ⟨old, _⟩
    · obtain ⟨first, here, advances⟩ := inv.requests r member
      have shape := advances.shape
      refine ⟨first, here, ?_, ?_⟩
      · rw [shape]
      · intro absent
        rw [shape] at listed
        exact absurd listed absent
    · exact inv.requests other old
  · intro other inside grown
    rcases mem_store inside with rfl | ⟨old, different⟩
    · cases inv.reading r member grown with
      | waiting unset unread behind =>
        by_cases last : r.draftComputed + nNew = r.nTokens
        · exact .batched c.ub.outIds.length (mem_append_right _ mem_cons_self) unread
            (c.feed_lastRow_last d.pool last) (Nat.zero_lt_of_lt behind) last
            (.last formed positive last)
        · refine .waiting ?_ unread (Nat.lt_of_le_of_ne fits last)
          rw [c.feed_lastRow_more d.pool last]
          exact unset
      | batched _ _ _ _ _ caught => omega
      | read _ caught => omega
    · have row := c.feed_lastRow_other d.pool r nNew different
      cases inv.reading other old grown with
      | waiting unset unread behind => exact .waiting (row.trans unset) unread behind
      | batched number here unread last filled caught found =>
        exact .batched number (mem_append_left _ here) unread (row.trans last) filled
          caught (found.feed formed feeds)
      | read logits caught => exact .read logits caught
  · have less := behind_store sound.unique member fits
    have spent := inv.spent
    change _ + (c.used + nNew) = _
    omega
  · rw [feeds.tokens, length_append, length_map, length_range', inv.tokens]
    rfl
  · intro _
    exact Nat.lt_of_lt_of_le positive (Nat.le_add_left _ _)

theorem enqueue {id : Nat} (listed : id ∈ reqs) :
    Assembling start reqs fresh lastLogits (enqueue (d, c) id).1 (enqueue (d, c) id).2 := by
  rcases enqueue_cases d c id with ⟨same, _⟩ | ⟨r, nNew, found, positive, fits, same⟩
  · rw [same]
    exact inv
  · obtain ⟨member, rfl⟩ := find_some found
    rw [same]
    exact inv.feed member listed positive fits

theorem enqueueAll {ids : List Nat} (listed : ∀ id ∈ ids, id ∈ reqs) :
    Assembling start reqs fresh lastLogits (ids.foldl DraftModel.enqueue (d, c)).1
      (ids.foldl DraftModel.enqueue (d, c)).2 :=
  foldlRecOn (motive := fun next => Assembling start reqs fresh lastLogits next.1 next.2) ids
    DraftModel.enqueue inv fun _ inv id inside => inv.enqueue (listed id inside)

end Assembling

theorem enqueueAll_grows (ids : List Nat) (d : DraftModel M) (c : CatchUp) :
    c.inBatch <+: (ids.foldl enqueue (d, c)).2.inBatch := by
  induction ids generalizing d c with
  | nil => exact prefix_refl _
  | cons id ids ih =>
    rw [foldl_cons]
    rcases enqueue_cases d c id with ⟨same, _⟩ | ⟨r, nNew, _, _, _, same⟩
    · rw [same]
      exact ih d c
    · have step : c.inBatch <+: (c.feed d.pool r nNew).inBatch := prefix_append _ _
      rw [same]
      exact step.trans (ih _ _)

variable {c : CatchUp} {reqs : List Nat} {fresh : Nat → Prop}
    {lastLogits : Nat → Option (List M.Logit)} {start : DraftModel M}

/-- The loop leaves the batch empty only if no request is behind. -/
theorem enqueueAll_empty (unused : c.used < budget)
    (empty : (ids.foldl enqueue (d, c)).2.inBatch = []) :
    ids.foldl enqueue (d, c) = (d, c) ∧
      ∀ id ∈ ids, ∀ r, d.find id = some r → r.nTokens ≤ r.draftComputed := by
  induction ids with
  | nil => exact ⟨rfl, nofun⟩
  | cons id ids ih =>
    rw [foldl_cons] at empty ⊢
    rcases enqueue_cases d c id with ⟨same, caught⟩ | ⟨r, nNew, _, _, _, same⟩
    · rw [same] at empty ⊢
      obtain ⟨rest, others⟩ := ih empty
      refine ⟨rest, ?_⟩
      intro other inside r found
      rcases mem_cons.mp inside with rfl | later
      · exact caught r found unused
      · exact others other later r found
    · have grown := enqueueAll_grows ids (d.store { r with
        draftComputed := r.draftComputed + nNew }) (c.feed d.pool r nNew)
      rw [same] at empty
      rw [empty, prefix_nil] at grown
      exact absurd grown (append_ne_nil_of_right_ne_nil _ (cons_ne_nil _ _))

/-- The rows that were read are those of the requests' tokens. -/
theorem Assembling.keepLogits (inv : Assembling start reqs fresh lastLogits d c) {r : DraftRequest}
    (member : r ∈ d.requests) (grown : fresh r.id) {pool : BlockPool} :
    Reading M pool { lastRow := c.lastRow }
      (keepLogits c (c.ub.withRow.logits (c.ub.write d.cells)) lastLogits) r := by
  cases inv.reading r member grown with
  | waiting unset unread behind =>
    refine .waiting unset ?_ behind
    unfold DraftModel.keepLogits
    rw [unread, unset]
    simp
  | read logits caught =>
    refine .read ?_ caught
    unfold DraftModel.keepLogits
    rw [logits]
  | batched row here unread last some caught found =>
    refine .read ?_ caught
    have output := found (c.ub.write d.cells)
    obtain ⟨layout, exact⟩ := inv.sound.place member
    have read := layout.context exact (r.seqInfo_cells settled d.pool _) (Nat.le_refl _)
      (Nat.le_of_eq caught.symm)
    have whole : (r.seat settled).fed.take r.nTokens = r.tokens := by
      change (r.tokens ++ r.specTokens).take r.tokens.length = r.tokens
      exact take_left
    have token : r.fed.getD (r.nTokens - 1) 0 = r.tokens.getLastD 0 := by
      rw [getLastD_eq_getLast?, getLast?_eq_getElem?, ← getD_eq_getElem?_getD, DraftRequest.fed]
      exact getD_append _ _ _ _ (Nat.sub_lt some Nat.one_pos)
    rw [read, whole, token] at output
    have filled : c.ub.outIds ≠ [] := by
      intro none
      rw [Batch.outputs, none] at output
      cases output
    unfold DraftModel.keepLogits
    rw [unread, last, Batch.withRow_of_ne filled]
    dsimp only
    rw [if_pos here, Option.map_some, getD_eq_getElem?_getD, Batch.logits, getElem?_map, output]
    rfl

/-- A batch is run: what was counted as written is written. -/
theorem Assembling.run (inv : Assembling start reqs fresh lastLogits d c) (busy : c.inBatch ≠ []) :
    ∃ next logits, d.run c.inBatch c.ub.withRow none = (next, .ok logits) ∧
      next.requests = d.requests ∧ next.nDraft = d.nDraft ∧
      Assembling next reqs fresh (DraftModel.keepLogits c logits lastLogits) next
        { lastRow := c.lastRow } := by
  have sound := inv.sound
  refine ⟨_, _, rfl, rfl, rfl, ?_⟩
  have filled := inv.filled busy
  rw [← inv.tokens] at filled
  rw [Batch.withRow_write]
  refine ⟨sound.log (inv.owned.withRow filled) _, .empty _ _, rfl, rfl, inv.room, ?_, ?_, rfl, rfl,
    fun absurd => (absurd rfl).elim⟩
  · intro r member
    exact ⟨r, member, rfl, fun _ => rfl⟩
  · intro r member grown
    exact inv.keepLogits member grown

/-- Phase 1: the requests have been fed all their tokens, and the logits behind the last of
them have been read. -/
structure CaughtUp (d : DraftModel M) (reqs : List Nat) (fresh : Nat → Prop)
    (next : DraftModel M) (logits : Nat → Option (List M.Logit)) : Prop where
  sound : next.Sound next.cells settled
  nDraft : next.nDraft = d.nDraft
  count : next.requests.length = d.requests.length
  requests : ∀ last ∈ next.requests, ∃ r ∈ d.requests, r.Advances reqs last
  room : ∀ r ∈ next.requests, r.id ∈ reqs → r.HasCells next.nDraft
  caught : ∀ r ∈ next.requests, r.id ∈ reqs → r.draftComputed = r.nTokens
  logits : ∀ r ∈ next.requests, r.id ∈ reqs → fresh r.id →
    logits r.id = some (M.prefixLogits r.tokens)

theorem CaughtUp.trans {mid next : DraftModel M} {logits : Nat → Option (List M.Logit)}
    (caught : CaughtUp mid reqs fresh next logits) (nDraft : mid.nDraft = d.nDraft)
    (count : mid.requests.length = d.requests.length)
    (requests : ∀ last ∈ mid.requests, ∃ r ∈ d.requests, r.Advances reqs last) :
    CaughtUp d reqs fresh next logits := by
  refine { caught with
    nDraft := caught.nDraft.trans nDraft, count := caught.count.trans count, requests := ?_ }
  intro last member
  obtain ⟨next, inside, second⟩ := caught.requests last member
  obtain ⟨r, here, first⟩ := requests next inside
  refine ⟨r, here, ?_, ?_⟩
  · rw [second.shape, first.shape]
  intro absent
  have kept := first.other absent
  rw [kept] at second
  exact second.other absent

/-- The catch-up loop ends: every batch feeds at least one token. -/
theorem catchUp_spec {fault : Option DraftFault}
    (calm : ∀ batch, DraftFault.inCatchUp batch fault = none) {fuel : Nat}
    {lastRow : Nat → Option Nat} (inv : Assembling d reqs fresh lastLogits d { lastRow := lastRow })
    (enough : d.behind < fuel) (batch : Nat) :
    ∃ next logits, d.catchUp fault reqs fuel batch lastRow lastLogits = (next, .ok logits) ∧
      CaughtUp d reqs fresh next logits := by
  induction fuel generalizing d lastRow lastLogits batch with
  | zero => omega
  | succ fuel ih =>
    have assembled := inv.enqueueAll (fun id (inside : id ∈ reqs) => inside)
    by_cases idle : (reqs.foldl enqueue (d, { lastRow := lastRow })).2.inBatch = []
    · obtain ⟨same, caught⟩ := enqueueAll_empty (show 0 < budget by decide) idle
      refine ⟨d, lastLogits, ?_, ?_⟩
      · rw [catchUp, same]
        rfl
      have level : ∀ r ∈ d.requests, r.id ∈ reqs → r.draftComputed = r.nTokens := by
        intro r member listed
        have most := inv.sound.caught r member
        have least := caught r.id listed r (inv.sound.find member)
        omega
      refine ⟨inv.sound, rfl, rfl, inv.requests, inv.room, level, ?_⟩
      intro r member listed grown
      have whole := level r member listed
      cases inv.reading r member grown with
      | waiting _ _ behind => omega
      | batched _ here => cases here
      | read logits _ => exact logits
    · obtain ⟨mid, logits, ran, requests, nDraft, again⟩ := assembled.run idle
      have less : mid.behind < fuel := by
        have spent := assembled.spent
        have some := assembled.filled idle
        rw [behind, requests, ← behind]
        change _ + _ = d.behind at spent
        omega
      obtain ⟨next, final, rest, caught⟩ := ih again less (batch + 1)
      have count : mid.requests.length = d.requests.length := by
        rw [requests]
        exact assembled.count
      refine ⟨next, final, ?_, caught.trans (nDraft.trans assembled.nDraft) count ?_⟩
      · rw [catchUp]
        dsimp only
        rw [if_neg (by simpa using idle), calm batch, ran]
        exact rest
      · rw [requests]
        exact assembled.requests

end DraftModel

end Iian
