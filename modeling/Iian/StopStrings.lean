import Iian.Decode

/- The search for stop strings: which occurrence it finds, and what it has to know about the
text before its offset. -/
namespace Iian

open List

/-- `pattern` stands in `text` at place `pos`. -/
def Occurs (pattern text : Bytes) (pos : Nat) : Prop := pattern <+: text.drop pos

/-- No stop string stands in the text. -/
def Clean (stops : List Bytes) (text : Bytes) : Prop :=
  ∀ stop ∈ stops, stop ≠ [] → ∀ pos, ¬ Occurs stop text pos

variable {pattern text : Bytes} {pos : Nat} {stops : List Bytes} {best : Option (Nat × Nat × Bytes)}

theorem Occurs.bound (occurs : Occurs pattern text pos) (some : pattern ≠ []) :
    pos + pattern.length ≤ text.length := by
  have length := occurs.length_le
  have positive := length_pos_iff.mpr some
  rw [length_drop] at length
  omega

theorem occurs_append (more : Bytes) (inside : pos + pattern.length ≤ text.length) :
    Occurs pattern (text ++ more) pos ↔ Occurs pattern text pos := by
  unfold Occurs
  rw [drop_append_of_le_length (by omega)]
  constructor
  · intro longer
    apply prefix_of_prefix_length_le longer (prefix_append _ _)
    rw [length_drop]
    omega
  · intro occurs
    exact occurs.trans (prefix_append _ _)

theorem clean_nil (stops : List Bytes) : Clean stops [] := by
  intro stop _ some pos occurs
  have bound := occurs.bound some
  have positive := length_pos_iff.mpr some
  rw [length_nil] at bound
  omega

namespace Gen

theorem findFrom_some {start : Nat} (found : findFrom text pattern start = some pos) :
    start ≤ pos ∧ Occurs pattern text pos ∧
      ∀ other, start ≤ other → Occurs pattern text other → pos ≤ other := by
  rw [findFrom, find?_range_eq_some] at found
  simp only [decide_eq_true_eq, List.isPrefixOf_iff_prefix, Bool.not_eq_true',
    decide_eq_false_iff_not] at found
  obtain ⟨⟨low, here⟩, _, first⟩ := found
  refine ⟨low, here, ?_⟩
  intro other behind occurs
  by_contra early
  exact first other (Nat.lt_of_not_le early) ⟨behind, occurs⟩

theorem findFrom_none {start : Nat} (some : pattern ≠ [])
    (missed : findFrom text pattern start = none) :
    ∀ other, start ≤ other → ¬ Occurs pattern text other := by
  intro other behind occurs
  rw [findFrom, find?_eq_none] at missed
  have bound := occurs.bound some
  apply missed other (mem_range.mpr (by omega))
  simp only [decide_eq_true_eq, List.isPrefixOf_iff_prefix]
  exact ⟨behind, occurs⟩

/-- One turn of the loop over the stop strings. -/
def searchTurn (text : Bytes) (offset : Nat) (best : Option (Nat × Nat × Bytes)) (stop : Bytes) :
    Option (Nat × Nat × Bytes) :=
  if stop.isEmpty then best
  else
    match findFrom text stop (offset - stop.length) with
    | none => best
    | some pos =>
      match best with
      | none => some (pos + stop.length, pos, stop)
      | some (bestEnd, _, _) =>
        if pos + stop.length < bestEnd then some (pos + stop.length, pos, stop) else best

theorem bestStop_eq (text : Bytes) (offset : Nat) (stops : List Bytes) :
    bestStop text offset stops = stops.foldl (searchTurn text offset) none := by
  unfold bestStop
  congr
  funext best stop
  have start : (if offset > stop.length then offset - stop.length else 0) =
      offset - stop.length := by
    split <;> omega
  rw [start]
  rfl

/-- What a search result says about the occurrences from the offset on: none, or one of those
that end first. -/
def EndsFirst (text : Bytes) (offset : Nat) (stops : List Bytes) :
    Option (Nat × Nat × Bytes) → Prop
  | none => ∀ stop ∈ stops, stop ≠ [] → ∀ pos, offset - stop.length ≤ pos → ¬ Occurs stop text pos
  | some (bestEnd, bestStart, best) =>
    (best ∈ stops ∧ best ≠ [] ∧ bestEnd = bestStart + best.length ∧ Occurs best text bestStart) ∧
    ∀ stop ∈ stops, stop ≠ [] → ∀ pos, offset - stop.length ≤ pos → Occurs stop text pos →
      bestEnd ≤ pos + stop.length

theorem EndsFirst.searchTurn {offset : Nat} (ends : EndsFirst text offset stops best) (stop : Bytes) :
    EndsFirst text offset (stops ++ [stop]) (searchTurn text offset best stop) := by
  have member : ∀ {other}, other ∈ stops ++ [stop] → other ∈ stops ∨ other = stop := by
    intro other inside
    simpa using inside
  unfold Gen.searchTurn
  split
  · rename_i empty
    have blank := List.isEmpty_iff.mp empty
    cases best with
    | none =>
      intro other inside some
      rcases member inside with old | new
      · exact ends other old some
      · exact (some (new.trans blank)).elim
    | some result =>
      refine ⟨⟨mem_append_left _ ends.1.1, ends.1.2⟩, ?_⟩
      intro other inside some
      rcases member inside with old | new
      · exact ends.2 other old some
      · exact (some (new.trans blank)).elim
  · rename_i present
    have some : stop ≠ [] := fun blank => present (by rw [blank]; rfl)
    split
    · rename_i missed
      have absent := findFrom_none some missed
      cases best with
      | none =>
        intro other inside some
        rcases member inside with old | new
        · exact ends other old some
        · rw [new]
          exact absent
      | some result =>
        refine ⟨⟨mem_append_left _ ends.1.1, ends.1.2⟩, ?_⟩
        intro other inside some pos low occurs
        rcases member inside with old | new
        · exact ends.2 other old some pos low occurs
        · rw [new] at low occurs
          exact (absent pos low occurs).elim
    · rename_i pos found
      obtain ⟨_, here, first⟩ := findFrom_some found
      have own : ∀ other, offset - stop.length ≤ other → Occurs stop text other →
          pos + stop.length ≤ other + stop.length :=
        fun other low occurs => Nat.add_le_add_right (first other low occurs) _
      have placed : stop ∈ stops ++ [stop] ∧ stop ≠ [] ∧
          pos + stop.length = pos + stop.length ∧ Occurs stop text pos :=
        ⟨mem_append_right _ mem_cons_self, some, rfl, here⟩
      cases best with
      | none =>
        refine ⟨placed, ?_⟩
        intro other inside some place low occurs
        rcases member inside with old | new
        · exact (ends other old some place low occurs).elim
        · rw [new] at low occurs ⊢
          exact own place low occurs
      | some result =>
        obtain ⟨bestEnd, bestStart, best⟩ := result
        dsimp only
        split
        · rename_i earlier
          refine ⟨placed, ?_⟩
          intro other inside some place low occurs
          rcases member inside with old | new
          · exact Nat.le_trans (Nat.le_of_lt earlier) (ends.2 other old some place low occurs)
          · rw [new] at low occurs ⊢
            exact own place low occurs
        · rename_i later
          refine ⟨⟨mem_append_left _ ends.1.1, ends.1.2⟩, ?_⟩
          intro other inside some place low occurs
          rcases member inside with old | new
          · exact ends.2 other old some place low occurs
          · rw [new] at low occurs ⊢
            exact Nat.le_trans (Nat.le_of_not_lt later) (own place low occurs)

theorem bestStop_endsFirst (text : Bytes) (offset : Nat) (stops : List Bytes) :
    EndsFirst text offset stops (bestStop text offset stops) := by
  rw [bestStop_eq]
  induction stops using List.reverseRecOn with
  | nil => simp [EndsFirst]
  | append_singleton stops stop ih =>
    rw [foldl_append, foldl_cons, foldl_nil]
    exact ih.searchTurn stop

/-- When nothing stands before the offset, the search from the offset is a search of the
whole text. -/
theorem EndsFirst.whole {more : Bytes} (clean : Clean stops text)
    (ends : EndsFirst (text ++ more) text.length stops best) :
    EndsFirst (text ++ more) 0 stops best := by
  have late : ∀ stop ∈ stops, stop ≠ [] → ∀ pos, Occurs stop (text ++ more) pos →
      text.length - stop.length ≤ pos := by
    intro stop member some pos occurs
    by_contra early
    exact clean stop member some pos ((occurs_append more (by omega)).mp occurs)
  cases best with
  | none =>
    intro stop member some pos _ occurs
    exact ends stop member some pos (late stop member some pos occurs) occurs
  | some result =>
    refine ⟨ends.1, ?_⟩
    intro stop member some pos _ occurs
    exact ends.2 stop member some pos (late stop member some pos occurs) occurs

theorem EndsFirst.clean (ends : EndsFirst text 0 stops none) : Clean stops text := by
  intro stop member some pos
  exact ends stop member some pos (by omega)

end Gen

end Iian
