import Iian.Lib.JsonStrings
import Iian.StopStrings
import Iian.ToolCalls

/- The parts of an answer with tool calls are well-formed when its text is. -/
namespace Iian.ToolCalls

open List
open Lib (Json)
open Lib.Json (Numbers isSpace)
open Lib.Utf8 (Valid Cut ascii_of_all valid_ascii)

variable {Num : Type} {numbers : Numbers Num}

variable {byte : UInt8} {text : Bytes} {value : Json Num} {length : Nat}

theorem isSpace_ascii (space : isSpace byte = true) : byte.toNat < 0x80 := by
  simp only [isSpace, Bool.or_eq_true, beq_iff_eq] at space
  rcases space with ((rfl | rfl) | rfl) | rfl <;> decide

theorem isOpen_ascii (opens : isOpen byte = true) : byte.toNat < 0x80 := by
  simp only [isOpen, Bool.or_eq_true, beq_iff_eq] at opens
  rcases opens with rfl | rfl <;> decide

theorem isClose_ascii (closes : isClose byte = true) : byte.toNat < 0x80 := by
  simp only [isClose, Bool.or_eq_true, beq_iff_eq] at closes
  rcases closes with rfl | rfl <;> decide

theorem isSeparator_ascii (between : isSeparator byte = true) : byte.toNat < 0x80 := by
  simp only [isSeparator, Bool.or_eq_true, Bool.and_eq_true, beq_iff_eq, decide_eq_true_eq]
    at between
  rcases between with ((rfl | rfl) | rfl) | tab
  · decide
  · decide
  · decide
  · omega

theorem trim_valid (valid : Valid text) : Valid (trim text) :=
  (valid.dropWhile fun _ => isSpace_ascii).rdropWhile fun _ => isSpace_ascii

/-- A text can be cut on both sides of a text that stands in it. -/
theorem Occurs.cut {text marker : Bytes} (valid : Valid text) (inner : Valid marker)
    (some : marker ≠ []) {pos : Nat} (occurs : Occurs marker text pos) :
    Cut text pos ∧ Cut text (pos + marker.length) := by
  obtain ⟨rest, shape⟩ := occurs
  have before : Cut text pos := by
    rw [← take_append_drop pos text, ← shape] at valid
    exact valid.before inner some
  refine ⟨before, ?_⟩
  have parts : text.take (pos + marker.length) = text.take pos ++ marker := by
    rw [take_add, ← shape, take_left]
  rw [Cut, parts]
  exact before.append inner

/-- The strings of a call are well-formed. -/
def CallValid (call : ToolCall) : Prop := Valid call.name ∧ Valid call.arguments

theorem lookup_strings {members : List (Bytes × Json Num)} {key : Bytes}
    (found : members.lookup key = some value) :
    ∀ text ∈ value.strings, text ∈ Json.memberStrings members := by
  induction members with
  | nil => cases found
  | cons item members ih =>
    obtain ⟨other, old⟩ := item
    intro text member
    rw [Json.memberStrings]
    rw [lookup_cons] at found
    split at found
    · cases found
      exact mem_cons_of_mem _ (mem_append_left _ member)
    · exact mem_cons_of_mem _ (mem_append_right _ (ih found text member))

theorem argumentsText_valid {value : Option (Json Num)}
    (sound : ∀ one ∈ value, Json.Sound one) : Valid (argumentsText numbers value) := by
  unfold argumentsText
  split
  · decide
  · exact sound _ rfl _ mem_cons_self
  · exact Json.dump_valid numbers _ (sound _ rfl)

theorem toolCallFromJson_valid (sound : Json.Sound value) {call : ToolCall}
    (found : toolCallFromJson numbers value = some call) : CallValid call := by
  unfold toolCallFromJson at found
  split at found
  · rename_i members
    split at found
    · rename_i name here
      cases found
      refine ⟨sound _ (lookup_strings here _ mem_cons_self), argumentsText_valid ?_⟩
      intro one member text inside
      rcases Option.or_eq_some_iff.mp member with first | second
      · exact sound _ (lookup_strings first _ inside)
      · exact sound _ (lookup_strings second.2 _ inside)
    · cases found
  · cases found

theorem collectCalls_valid (sound : Json.Sound value) :
    ∀ call ∈ collectCalls numbers value, CallValid call := by
  unfold collectCalls
  split
  · rename_i items
    intro call member
    obtain ⟨item, inside, found⟩ := mem_filterMap.mp member
    refine toolCallFromJson_valid ?_ found
    have within : ∀ items : List (Json Num), item ∈ items →
        ∀ text ∈ item.strings, text ∈ Json.itemStrings items := by
      intro items inside text member
      induction items with
      | nil => cases inside
      | cons first items ih =>
        rw [Json.itemStrings]
        rcases mem_cons.mp inside with rfl | later
        · exact mem_append_left _ member
        · exact mem_append_right _ (ih later)
    exact fun text member => sound text (within items inside text member)
  · intro call member
    exact toolCallFromJson_valid sound (Option.mem_toList.mp member)

theorem parsedCalls_valid (text : Bytes) :
    ∀ call ∈ ((Json.parse numbers.read text).map (collectCalls numbers)).getD [],
      CallValid call := by
  cases parsed : Json.parse numbers.read text with
  | none => exact nofun
  | some value => exact collectCalls_valid (Json.parse_sound parsed)

/-- A value ends with the bracket that closes it. -/
theorem bracketEnd_close {depth : Nat} {inStr esc : Bool}
    (found : bracketEnd depth inStr esc text = some length) :
    ∃ place byte, length = place + 1 ∧ text[place]? = some byte ∧ isClose byte = true := by
  have step : ∀ {byte : UInt8} {rest : Bytes} {later : Option Nat} {length : Nat},
      (∀ {length : Nat}, later = some length →
        ∃ place close, length = place + 1 ∧ rest[place]? = some close ∧ isClose close = true) →
      later.map (· + 1) = some length →
      ∃ place close, length = place + 1 ∧ (byte :: rest)[place]? = some close ∧
        isClose close = true := by
    intro byte rest later length ih found
    obtain ⟨count, here, rfl⟩ := Option.map_eq_some_iff.mp found
    obtain ⟨place, close, rfl, at_, closes⟩ := ih here
    exact ⟨place + 1, close, rfl, at_, closes⟩
  fun_induction bracketEnd depth inStr esc text generalizing length with
  | case1 => cases found
  | case2 depth byte rest ih => exact step ih found
  | case3 depth rest ih => exact step ih found
  | case4 depth byte rest other ih => exact step ih found
  | case5 depth esc rest ih => exact step ih found
  | case6 depth esc byte rest other opens ih => exact step ih found
  | case7 depth esc byte rest other opens closes last =>
    cases found
    exact ⟨0, byte, rfl, rfl, closes⟩
  | case8 depth esc byte rest other opens closes inner ih => exact step ih found
  | case9 depth esc byte rest other opens closes ih => exact step ih found

theorem parseJsonAt_valid (valid : Valid text)
    (found : parseJsonAt numbers text = some (value, length)) :
    Json.Sound value ∧ Cut text length := by
  obtain ⟨first, _, found⟩ := Option.bind_eq_some_iff.mp found
  split at found
  · obtain ⟨count, ended, found⟩ := Option.bind_eq_some_iff.mp found
    obtain ⟨one, parsed, shape⟩ := Option.bind_eq_some_iff.mp found
    cases shape
    obtain ⟨place, byte, rfl, here, closes⟩ := bracketEnd_close ended
    exact ⟨Json.parse_sound parsed, (valid.cut_ascii here (isClose_ascii closes)).2⟩
  · cases found

/-- The parts of an answer are well-formed. -/
structure PartsValid (content : Bytes) (calls : List ToolCall) : Prop where
  content : Valid content
  calls : ∀ call ∈ calls, CallValid call

theorem hermesCalls_valid {fuel : Nat} {text : Bytes} (valid : Valid text) :
    PartsValid (hermesCalls numbers fuel text).1 (hermesCalls numbers fuel text).2 := by
  induction fuel generalizing text with
  | zero => exact ⟨valid, nofun⟩
  | succ fuel ih =>
    rw [hermesCalls]
    split
    · exact ⟨valid, nofun⟩
    rename_i start found
    obtain ⟨_, occurs, _⟩ := Gen.findFrom_some found
    obtain ⟨before, behind⟩ := Occurs.cut valid (valid_ascii (ascii_of_all (by decide))) (by decide) occurs
    have body := behind.drop valid
    dsimp only
    split
    · refine ⟨before.append ?_, parsedCalls_valid _⟩
      split
      · exact before.drop valid
      · exact .nil
    · rename_i stop closed
      obtain ⟨_, closes, _⟩ := Gen.findFrom_some closed
      have after := (Occurs.cut body (valid_ascii (ascii_of_all (by decide))) (by decide) closes).2
      have place : Cut text (start + openTag.length + stop + closeTag.length) := by
        rw [Cut, Nat.add_assoc, take_add]
        exact behind.append after
      have rest := ih (place.drop valid)
      refine ⟨(before.append ?_).append rest.content, ?_⟩
      · split
        · exact before.between place
        · exact .nil
      · intro call member
        rcases mem_append.mp member with here | later
        · exact parsedCalls_valid _ call here
        · exact rest.calls call later

theorem parseMistral_valid (valid : Valid text) :
    PartsValid (parseMistral numbers text).content (parseMistral numbers text).toolCalls := by
  unfold parseMistral
  split
  · rename_i start stop calls found
    obtain ⟨place, tag, found⟩ := Option.bind_eq_some_iff.mp found
    obtain ⟨gap, opens, found⟩ := Option.bind_eq_some_iff.mp found
    obtain ⟨⟨value, length⟩, parsed, found⟩ := Option.bind_eq_some_iff.mp found
    dsimp only at found
    split at found
    · cases found
    cases found
    obtain ⟨_, occurs, _⟩ := Gen.findFrom_some tag
    obtain ⟨before, behind⟩ := Occurs.cut valid (valid_ascii (ascii_of_all (by decide))) (by decide) occurs
    obtain ⟨inside, bracket, _⟩ := findIdx?_eq_some_iff_getElem.mp opens
    have body := behind.drop valid
    have first : Cut text (start + callsTag.length + gap) := by
      rw [Cut, take_add]
      exact behind.append (body.cut_ascii (getElem?_eq_getElem inside) (isOpen_ascii bracket)).1
    obtain ⟨sound, ends⟩ := parseJsonAt_valid (first.drop valid) parsed
    have last : Cut text (start + callsTag.length + gap + length) := by
      rw [Cut, take_add]
      exact first.append ends
    exact ⟨trim_valid (before.append (last.drop valid)), collectCalls_valid sound⟩
  · exact ⟨trim_valid valid, forall_mem_nil _⟩

theorem objectCalls_valid {fuel : Nat} {text : Bytes} (valid : Valid text) :
    PartsValid (objectCalls numbers fuel text).2 (objectCalls numbers fuel text).1 := by
  induction fuel generalizing text with
  | zero => exact ⟨valid, nofun⟩
  | succ fuel ih =>
    rw [objectCalls]
    split
    · exact ⟨valid, nofun⟩
    rename_i value length parsed
    obtain ⟨sound, ends⟩ := parseJsonAt_valid valid parsed
    have rest : Valid ((text.drop length).dropWhile isSeparator) :=
      (ends.drop valid).dropWhile fun _ => isSeparator_ascii
    dsimp only
    split
    · exact ⟨valid, nofun⟩
    split
    · refine ⟨(ih rest).content, ?_⟩
      intro call member
      rcases mem_append.mp member with here | later
      · exact collectCalls_valid sound call here
      · exact (ih rest).calls call later
    · exact ⟨rest, collectCalls_valid sound⟩

theorem untagged_valid (valid : Valid text) : Valid (untagged text) := by
  unfold untagged
  split
  · rename_i tagged
    have occurs : Occurs pythonTag (trim text) 0 := by
      rw [Occurs, drop_zero]
      exact List.isPrefixOf_iff_prefix.mp tagged
    have behind := (Occurs.cut (trim_valid valid) (valid_ascii (ascii_of_all (by decide))) (by decide) occurs).2
    rw [Nat.zero_add] at behind
    exact trim_valid (behind.drop (trim_valid valid))
  · exact trim_valid valid

theorem parseToolCalls_valid {text : Bytes} (valid : Valid text) (format : ToolFormat) :
    PartsValid (parseToolCalls numbers text format).content
      (parseToolCalls numbers text format).toolCalls := by
  have objects : PartsValid (parseObjects numbers text).content
      (parseObjects numbers text).toolCalls := by
    unfold parseObjects
    dsimp only
    split
    · exact ⟨trim_valid valid, nofun⟩
    · have found := @objectCalls_valid Num numbers ((untagged text).length + 1) _
        (untagged_valid valid)
      exact ⟨trim_valid found.content, found.calls⟩
  cases format with
  | hermes =>
    have found := @hermesCalls_valid Num numbers (text.length + 1) _ valid
    exact ⟨trim_valid found.content, found.calls⟩
  | mistral => exact parseMistral_valid valid
  | llama3 => exact objects
  | generic => exact objects
  | none => exact objects

end Iian.ToolCalls
