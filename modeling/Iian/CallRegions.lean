import Iian.HeldBack

/- The parts of an answer that `parse_tool_calls` turns into calls, and that nothing of them has
been sent before: what is streamed of a text ends before every such part of every continuation
of the text, and it only grows. -/
namespace Iian.ToolCalls

open List
open Lib (Json)
open Lib.Json (Numbers isSpace)

/-- A part of a text that becomes calls; it starts with its marker. -/
structure CallRegion where
  start : Nat
  calls : List ToolCall
deriving DecidableEq, Repr

variable {Num : Type} (numbers : Numbers Num)

/-- The region of some calls, if there are any. -/
def regionAt (start : Nat) (calls : List ToolCall) : List CallRegion :=
  if calls.isEmpty then [] else [⟨start, calls⟩]

/-- The regions that `hermesCalls` finds, for a text that starts at `offset`. -/
def hermesRegions : Nat → Nat → Bytes → List CallRegion
  | 0, _, _ => []
  | fuel + 1, offset, text =>
    match Gen.findFrom text openTag 0 with
    | .none => []
    | some start =>
      let body := text.drop (start + openTag.length)
      match Gen.findFrom body closeTag 0 with
      | .none => regionAt (offset + start)
          (((Json.parse numbers.read (trim body)).map (collectCalls numbers)).getD [])
      | some stop =>
        let place := start + openTag.length + stop + closeTag.length
        regionAt (offset + start)
            (((Json.parse numbers.read (trim (body.take stop))).map
              (collectCalls numbers)).getD []) ++
          hermesRegions fuel (offset + place) (text.drop place)

/-- Objects are read from the first byte on that is not blank; the python tag is a part of the
region. -/
def callRegions (text : Bytes) : ToolFormat → List CallRegion
  | .hermes => hermesRegions numbers (text.length + 1) 0 text
  | .mistral => (mistralCalls numbers text).toList.map (fun found => ⟨found.1, found.2.2⟩)
  | .llama3 | .generic | .none => regionAt (text.takeWhile isSpace).length
      (objectCalls numbers ((untagged text).length + 1) (untagged text)).1

variable {numbers}

theorem regionAt_calls (start : Nat) (calls : List ToolCall) :
    (regionAt start calls).flatMap CallRegion.calls = calls := by
  unfold regionAt
  split
  · rename_i none
    rw [List.isEmpty_iff.mp none]
    rfl
  · exact append_nil calls

theorem mem_regionAt {start : Nat} {calls : List ToolCall} {region : CallRegion}
    (member : region ∈ regionAt start calls) : region.start = start ∧ region.calls ≠ [] := by
  unfold regionAt at member
  split at member
  · cases member
  · rename_i some
    rw [mem_singleton.mp member]
    exact ⟨rfl, fun none => some (List.isEmpty_iff.mpr none)⟩

theorem hermesRegions_calls (fuel offset : Nat) (text : Bytes) :
    (hermesRegions numbers fuel offset text).flatMap CallRegion.calls =
      (hermesCalls numbers fuel text).2 := by
  induction fuel generalizing offset text with
  | zero => rfl
  | succ fuel ih =>
    rw [hermesRegions, hermesCalls]
    cases Gen.findFrom text openTag 0 with
    | none => rfl
    | some start =>
      dsimp only
      cases Gen.findFrom (text.drop (start + openTag.length)) closeTag 0 with
      | none => exact regionAt_calls _ _
      | some stop =>
        dsimp only
        rw [flatMap_append, regionAt_calls, ih]

/-- Every region starts with a tag. -/
theorem hermesRegions_occurs (fuel : Nat) {front text : Bytes} {region : CallRegion}
    (member : region ∈ hermesRegions numbers fuel front.length text) :
    Occurs openTag (front ++ text) region.start ∧ region.calls ≠ [] := by
  induction fuel generalizing front text with
  | zero => cases member
  | succ fuel ih =>
    rw [hermesRegions] at member
    split at member
    · cases member
    rename_i start found
    have here : Occurs openTag (front ++ text) (front.length + start) := by
      rw [Occurs, ← drop_drop, drop_left]
      exact (Gen.findFrom_some found).2.1
    dsimp only at member
    split at member
    · obtain ⟨same, some⟩ := mem_regionAt member
      rw [same]
      exact ⟨here, some⟩
    · rename_i stop ended
      rcases mem_append.mp member with first | later
      · obtain ⟨same, some⟩ := mem_regionAt first
        rw [same]
        exact ⟨here, some⟩
      · have inside := (Gen.findFrom_some found).2.1.bound (by decide)
        have within := (Gen.findFrom_some ended).2.1.bound (by decide)
        rw [length_drop] at within
        have reach : start + openTag.length + stop + closeTag.length ≤ text.length := by omega
        generalize start + openTag.length + stop + closeTag.length = place at reach later
        have split : front ++ text = (front ++ text.take place) ++ text.drop place := by
          rw [append_assoc, take_append_drop]
        rw [split]
        apply ih
        rw [length_append, length_take, Nat.min_eq_left reach]
        exact later

theorem callRegions_calls (text : Bytes) (format : ToolFormat) :
    (parseToolCalls numbers text format).toolCalls =
      (callRegions numbers text format).flatMap CallRegion.calls := by
  have objects : (parseObjects numbers text).toolCalls =
      (objectCalls numbers ((untagged text).length + 1) (untagged text)).1 := by
    unfold parseObjects
    dsimp only
    split
    · rename_i none
      exact (List.isEmpty_iff.mp none).symm
    · rfl
  cases format with
  | hermes => exact (hermesRegions_calls _ _ _).symm
  | mistral =>
    change (parseMistral numbers text).toolCalls = _
    unfold parseMistral callRegions
    cases mistralCalls numbers text with
    | none => rfl
    | some found => exact (append_nil _).symm
  | llama3 => exact objects.trans (regionAt_calls _ _).symm
  | generic => exact objects.trans (regionAt_calls _ _).symm
  | none => exact objects.trans (regionAt_calls _ _).symm

variable {front : Bytes}

/-- What is held back of a longer text starts later. -/
theorem heldForMarker_mono {marker whole : Bytes} (some : marker ≠ []) (leads : front <+: whole) :
    heldForMarker front marker ≤ heldForMarker whole marker := by
  cases found : Gen.findFrom whole marker 0 with
  | some start =>
    have place : heldForMarker whole marker = start := by rw [heldForMarker, found]
    rw [place]
    exact heldForMarker_le some leads (Gen.findFrom_some found).2.1
  | none =>
    have place : heldForMarker whole marker =
        whole.length - heldBytes whole marker (min (marker.length - 1) whole.length) := by
      rw [heldForMarker, found]
    have fits := @heldBytes_fits whole marker (min (marker.length - 1) whole.length)
    rw [place]
    generalize heldBytes whole marker (min (marker.length - 1) whole.length) = held at fits ⊢
    -- the whole text may go on with the rest of the marker
    refine heldForMarker_le some (leads.trans (prefix_append whole (marker.drop held))) ?_
    have joined : marker <+: marker.take held ++ marker.drop held := by simp
    rw [Occurs, drop_append_of_le_length (Nat.sub_le _ _), fits]
    exact joined

theorem streamable_mono {whole : Bytes} (leads : front <+: whole) (format : ToolFormat) :
    streamable front format ≤ streamable whole format := by
  have objects : streamable front .none ≤ streamable whole .none := by
    unfold streamable
    dsimp only
    obtain ⟨more, rfl⟩ := leads
    cases head : (front.dropWhile isSpace).head? with
    | none => exact Nat.zero_le _
    | some byte =>
      have same : ((front ++ more).dropWhile isSpace).head? = some byte := by
        rw [dropWhile_append]
        split
        · rename_i none
          rw [List.isEmpty_iff.mp none] at head
          cases head
        · rw [head?_append, head]
          rfl
      rw [same]
      dsimp only
      split
      · exact Nat.le_refl _
      · rw [length_append]
        exact Nat.le_add_right _ _
  cases format with
  | hermes => exact heldForMarker_mono (by decide) leads
  | mistral => exact heldForMarker_mono (by decide) leads
  | llama3 => exact objects
  | generic => exact objects
  | none => exact objects

/-- Every region starts behind what is streamed of any part of the text. -/
theorem streamable_le_region {text : Bytes} (leads : front <+: text) {format : ToolFormat}
    {region : CallRegion} (member : region ∈ callRegions numbers text format) :
    streamable front format ≤ region.start := by
  have objects : region ∈ callRegions numbers text .none →
      streamable front .none ≤ region.start := by
    intro member
    have some : (parseToolCalls numbers text .none).toolCalls ≠ [] := by
      rw [callRegions_calls]
      intro none
      exact (mem_regionAt member).2 (flatMap_eq_nil_iff.mp none region member)
    have held : streamable front .none = 0 := streamable_objects some leads
    rw [held]
    exact Nat.zero_le _
  cases format with
  | hermes =>
    obtain ⟨occurs, _⟩ := @hermesRegions_occurs _ numbers (text.length + 1) [] text region member
    exact heldForMarker_le (by decide) leads occurs
  | mistral =>
    obtain ⟨⟨start, stop, calls⟩, found, rfl⟩ := mem_map.mp member
    rw [Option.mem_toList] at found
    obtain ⟨place, tagged, parsed⟩ := Option.bind_eq_some_iff.mp found
    obtain ⟨_, _, parsed⟩ := Option.bind_eq_some_iff.mp parsed
    obtain ⟨_, _, parsed⟩ := Option.bind_eq_some_iff.mp parsed
    dsimp only at parsed
    split at parsed
    · cases parsed
    · cases parsed
      exact heldForMarker_le (by decide) leads (Gen.findFrom_some tagged).2.1
  | llama3 => exact objects member
  | generic => exact objects member
  | none => exact objects member

/-- The calls of a text are those of its regions. What is streamed of a part of the text ends
before all of them, so before the first one, and it grows with the part. -/
theorem streamable_safe (numbers : Numbers Num) (format : ToolFormat) (text : Bytes) :
    (parseToolCalls numbers text format).toolCalls =
        (callRegions numbers text format).flatMap CallRegion.calls ∧
      ∀ part, part <+: text →
        (∀ region ∈ callRegions numbers text format, streamable part format ≤ region.start) ∧
        ∀ front, front <+: part → streamable front format ≤ streamable part format :=
  ⟨callRegions_calls text format, fun _ leads =>
    ⟨fun _ member => streamable_le_region leads member, fun _ first => streamable_mono first format⟩⟩

end Iian.ToolCalls
