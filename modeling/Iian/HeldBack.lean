import Iian.ToolCallText

/- How much of a text with tool calls is streamed before its end is known, and what that
leaves of its content. -/
namespace Iian.ToolCalls

open List
open Lib (Json)
open Lib.Json (Numbers isSpace)

variable {front text : Bytes}

section Trimming

/-- A text starts with a byte that `trim` removes. -/
def startsBlank (text : Bytes) : Bool := (text.head?.map isSpace).getD false

theorem startsBlank_leads (leads : front <+: text) (some : front ≠ []) :
    startsBlank front = startsBlank text := by
  obtain ⟨more, rfl⟩ := leads
  obtain ⟨first, rest, rfl⟩ := exists_cons_of_ne_nil some
  rfl

theorem startsBlank_trim (text : Bytes) : startsBlank (trim text) = false := by
  have leads : trim text <+: text.dropWhile isSpace := rdropWhile_prefix _ _
  have first := head?_dropWhile_not isSpace text
  by_cases none : trim text = []
  · rw [none]
    rfl
  rw [startsBlank_leads leads none, startsBlank]
  cases head : (text.dropWhile isSpace).head? with
  | none => rfl
  | some byte =>
    rw [head] at first
    exact first

theorem trim_of_start (start : startsBlank text = false) : trim text = text.rdropWhile isSpace := by
  cases text with
  | nil => rfl
  | cons first rest => rw [trim, dropWhile_cons_of_neg (by simpa [startsBlank] using start)]

theorem trim_trim (text : Bytes) : trim (trim text) = trim text := by
  rw [trim_of_start (startsBlank_trim text), trim]
  exact rdropWhile_idempotent _ _

/-- Nothing is left behind a part that covers what is kept. -/
theorem rdropWhile_take {α : Type} {skip : α → Bool} {items : List α} {count : Nat}
    (covers : (items.rdropWhile skip).length ≤ count) :
    (items.take count).rdropWhile skip = items.rdropWhile skip := by
  induction items using List.reverseRecOn with
  | nil => rw [take_nil]
  | append_singleton items item ih =>
    rcases Nat.lt_or_ge items.length count with all | part
    · rw [take_of_length_le (by simpa using Nat.succ_le_of_lt all)]
    rw [rdropWhile_concat] at covers ⊢
    rw [take_append_of_le_length part]
    split at covers
    · rename_i skipped
      rw [if_pos skipped]
      exact ih covers
    · rw [length_append, length_singleton] at covers
      omega

/-- What a client has of the content when the calls have been parsed: what was sent, and the
rest of the content if it goes on from there. -/
def shownContent (sent content : Bytes) : Bytes :=
  sent ++ if content.length > sent.length && sent.isPrefixOf content then
    content.drop sent.length else []

theorem shownContent_goes {sent content : Bytes} (leads : sent <+: content) :
    shownContent sent content = content := by
  obtain ⟨rest, rfl⟩ := leads
  unfold shownContent
  cases rest with
  | nil => simp
  | cons first rest => simp

theorem shownContent_stays {sent content : Bytes}
    (other : ¬ (sent.length < content.length ∧ sent <+: content)) :
    shownContent sent content = sent := by
  rw [shownContent, if_neg, append_nil]
  simpa [List.isPrefixOf_iff_prefix] using other

/-- With calls, the content that was shown is the content of the answer up to blanks, unless
blanks were sent first and there is something to add. -/
theorem trim_shownContent {back : Bytes} {count place : Nat} (order : count ≤ place) :
    trim (shownContent (text.take count) (trim (text.take place ++ back))) =
        trim (text.take place ++ back) ↔
      count = 0 ∨ startsBlank text = false ∨
        trim (text.take count) = trim (text.take place ++ back) := by
  have leads : text.take count <+: text.take place ++ back :=
    (take_prefix_take_left order).trans (prefix_append _ _)
  generalize text.take place ++ back = whole at leads ⊢
  by_cases none : text.take count = []
  · rw [none, shownContent_goes nil_prefix, trim_trim]
    rcases take_eq_nil_iff.mp none with zero | blank
    · exact iff_of_true rfl (.inl zero)
    · exact iff_of_true rfl (.inr (.inl (by rw [blank]; rfl)))
  · have start := startsBlank_leads leads none
    have some : count ≠ 0 := fun zero => none (take_eq_nil_iff.mpr (.inl zero))
    rw [startsBlank_leads (List.take_prefix _ _) none] at start
    cases blank : startsBlank text with
    | true =>
      rw [shownContent_stays]
      · simp [some]
      rintro ⟨_, inside⟩
      have same := startsBlank_leads inside none
      rw [startsBlank_leads (List.take_prefix _ _) none, blank, startsBlank_trim] at same
      cases same
    | false =>
      refine iff_of_true ?_ (.inr (.inl rfl))
      rw [blank] at start
      by_cases more : (text.take count).length < (trim whole).length
      · rw [shownContent_goes, trim_trim]
        have kept : trim whole <+: whole := by
          rw [trim_of_start start.symm]
          exact rdropWhile_prefix _ _
        exact prefix_of_prefix_length_le leads kept (Nat.le_of_lt more)
      · rw [shownContent_stays fun both => more both.1, prefix_iff_eq_take.mp leads]
        have same := startsBlank_leads leads none
        rw [prefix_iff_eq_take.mp leads, ← start] at same
        rw [trim_of_start same, trim_of_start start.symm]
        rw [trim_of_start start.symm] at more
        exact rdropWhile_take (Nat.le_of_not_lt more)

end Trimming

section Markers

variable {text marker : Bytes}

theorem heldBytes_fits (limit : Nat) :
    text.drop (text.length - heldBytes text marker limit) =
      marker.take (heldBytes text marker limit) := by
  induction limit with
  | zero => simp [heldBytes]
  | succ limit ih =>
    rw [heldBytes]
    split
    · assumption
    · exact ih

theorem le_heldBytes {limit count : Nat} (small : count ≤ limit)
    (fits : text.drop (text.length - count) = marker.take count) :
    count ≤ heldBytes text marker limit := by
  induction limit with
  | zero => exact small
  | succ limit ih =>
    rw [heldBytes]
    split
    · exact small
    rename_i other
    apply ih
    by_contra last
    rw [show count = limit + 1 by omega] at fits
    exact other fits

theorem heldForMarker_le_length (some : marker ≠ []) :
    heldForMarker text marker ≤ text.length := by
  unfold heldForMarker
  split
  · rename_i start found
    have bound := (Gen.findFrom_some found).2.1.bound some
    omega
  · exact Nat.sub_le _ _

/-- What is sent of a text ends before every marker that its continuation has. -/
theorem heldForMarker_le (some : marker ≠ []) (leads : front <+: text) {place : Nat}
    (occurs : Occurs marker text place) : heldForMarker front marker ≤ place := by
  have inside : place + marker.length ≤ front.length → Occurs marker front place := by
    intro fits
    obtain ⟨more, rfl⟩ := leads
    exact (occurs_append more fits).mp occurs
  have positive := length_pos_iff.mpr some
  unfold heldForMarker
  split
  · rename_i start found
    obtain ⟨_, here, first⟩ := Gen.findFrom_some found
    by_cases fits : place + marker.length ≤ front.length
    · exact first place (Nat.zero_le _) (inside fits)
    · have bound := here.bound some
      omega
  · rename_i missed
    have cut : ¬ place + marker.length ≤ front.length := fun fits =>
      Gen.findFrom_none some missed place (Nat.zero_le _) (inside fits)
    by_cases beyond : front.length ≤ place
    · omega
    -- The bytes of `front` from `place` on are a start of the marker.
    have size : (front.drop place).length = front.length - place := length_drop
    have starts : front.drop place <+: marker := by
      refine prefix_of_prefix_length_le ?_ occurs (by omega)
      obtain ⟨more, rfl⟩ := leads
      rw [drop_append_of_le_length (by omega)]
      exact prefix_append _ _
    have held := @le_heldBytes front marker (min (marker.length - 1) front.length)
      (front.length - place) (by omega) (by
        rw [show front.length - (front.length - place) = place by omega, ← size]
        exact prefix_iff_eq_take.mp starts)
    omega

end Markers

section Streaming

variable {Num : Type} {numbers : Numbers Num} {text : Bytes} {format : ToolFormat}

theorem streamable_nil (format : ToolFormat) : streamable [] format = 0 := by
  cases format <;> decide

theorem streamable_le_length (text : Bytes) (format : ToolFormat) :
    streamable text format ≤ text.length := by
  have objects : streamable text .none ≤ text.length := by
    unfold streamable
    dsimp only
    split
    · exact Nat.zero_le _
    · split
      · exact Nat.zero_le _
      · exact Nat.le_refl _
  cases format with
  | hermes => exact heldForMarker_le_length (by decide)
  | mistral => exact heldForMarker_le_length (by decide)
  | llama3 => exact objects
  | generic => exact objects
  | none => exact objects

/-- Objects are only read from a text that is held back as a whole. -/
theorem parseObjects_held (some : (parseObjects numbers text).toolCalls ≠ []) :
    ∃ byte, (text.dropWhile isSpace).head? = Option.some byte ∧
      (isOpen byte || byte == 0x3C) = true := by
  have leads : trim text <+: text.dropWhile isSpace := rdropWhile_prefix _ _
  have first : ∀ {byte : UInt8}, (trim text).head? = Option.some byte →
      (text.dropWhile isSpace).head? = Option.some byte := by
    intro byte head
    obtain ⟨more, shape⟩ := leads
    rw [← shape, head?_append, head]
    rfl
  have opens : ∃ byte, (untagged text).head? = Option.some byte ∧ isOpen byte = true := by
    unfold parseObjects at some
    dsimp only at some
    split at some
    · exact absurd rfl some
    rename_i found
    rw [objectCalls] at found
    split at found
    · exact absurd rfl found
    rename_i value length parsed
    obtain ⟨byte, head, parsed⟩ := Option.bind_eq_some_iff.mp parsed
    split at parsed
    · rename_i bracket
      exact ⟨byte, head, bracket⟩
    · cases parsed
  unfold untagged at opens
  split at opens
  · rename_i tagged
    obtain ⟨more, shape⟩ := List.isPrefixOf_iff_prefix.mp tagged
    exact ⟨0x3C, first (by rw [← shape]; rfl), rfl⟩
  · obtain ⟨byte, head, bracket⟩ := opens
    exact ⟨byte, first head, by rw [bracket]; rfl⟩

theorem streamable_objects (some : (parseObjects numbers text).toolCalls ≠ [])
    (leads : front <+: text) :
    (match (front.dropWhile isSpace).head? with
      | .none => 0
      | Option.some byte => if isOpen byte || byte == 0x3C then 0 else front.length) = 0 := by
  obtain ⟨first, head, held⟩ := parseObjects_held some
  obtain ⟨more, rfl⟩ := leads
  split
  · rfl
  rename_i byte here
  have same : byte = first := by
    rw [dropWhile_append] at head
    split at head
    · rename_i none
      rw [List.isEmpty_iff.mp none] at here
      cases here
    · rw [head?_append, here] at head
      exact Option.some.inj head
  rw [same, if_pos held]

/-- The content of a text with calls starts with all that may have been sent of it. -/
theorem parseToolCalls_content (some : (parseToolCalls numbers text format).toolCalls ≠ []) :
    ∃ place back, (parseToolCalls numbers text format).content = trim (text.take place ++ back) ∧
      ∀ front, front <+: text → streamable front format ≤ place := by
  have objects : (parseObjects numbers text).content =
      trim (text.take 0 ++ (parseObjects numbers text).content) := by
    rw [take_zero, nil_append]
    unfold parseObjects
    dsimp only
    split <;> exact (trim_trim _).symm
  have held : (parseObjects numbers text).toolCalls ≠ [] → ∀ front, front <+: text →
      (match (front.dropWhile isSpace).head? with
        | .none => 0
        | Option.some byte => if isOpen byte || byte == 0x3C then 0 else front.length) ≤ 0 :=
    fun some front leads => Nat.le_of_eq (streamable_objects some leads)
  cases format with
  | hermes =>
    change (hermesCalls numbers (text.length + 1) text).2 ≠ [] at some
    change ∃ place back, trim (hermesCalls numbers (text.length + 1) text).1 = _ ∧ _
    rw [hermesCalls] at some ⊢
    split at some
    · exact absurd rfl some
    rename_i start found
    have held : ∀ front, front <+: text → heldForMarker front openTag ≤ start :=
      fun front leads => heldForMarker_le (by decide) leads (Gen.findFrom_some found).2.1
    dsimp only
    split
    · exact ⟨start, _, rfl, held⟩
    · exact ⟨start, _, by rw [append_assoc], held⟩
  | mistral =>
    change (parseMistral numbers text).toolCalls ≠ [] at some
    change ∃ place back, (parseMistral numbers text).content = _ ∧ _
    unfold parseMistral at some ⊢
    split at some
    · rename_i start stop calls parsed
      obtain ⟨place, found, parsed⟩ := Option.bind_eq_some_iff.mp parsed
      obtain ⟨_, _, parsed⟩ := Option.bind_eq_some_iff.mp parsed
      obtain ⟨_, _, parsed⟩ := Option.bind_eq_some_iff.mp parsed
      dsimp only at parsed
      split at parsed
      · cases parsed
      · cases parsed
        exact ⟨start, _, rfl, fun front leads =>
          heldForMarker_le (by decide) leads (Gen.findFrom_some found).2.1⟩
    · exact absurd rfl some
  | llama3 => exact ⟨0, _, objects, held some⟩
  | generic => exact ⟨0, _, objects, held some⟩
  | none => exact ⟨0, _, objects, held some⟩

end Streaming

end Iian.ToolCalls
