import Iian.Lib.Utf8
import Iian.Spelling
import Mathlib.Data.List.Infix

/- The detokenizer against well-formed UTF-8: what it holds back, and where the text it has
emitted ends. -/
namespace Iian

open List
open Lib.Utf8 (isTail isChar width Valid isChar_shape isChar_lead)

variable {M : Model}

set_option maxRecDepth 4096 in
theorem isCont_eq (byte : UInt8) : isCont byte = isTail byte := by
  cases byte with
  | ofBitVec byte =>
    cases byte with
    | ofFin byte =>
      revert byte
      decide

set_option maxRecDepth 4096 in
theorem utf8SeqLen_lead (byte : UInt8)
    (lead : byte.toNat < 0x80 ∨ 0xC2 ≤ byte.toNat ∧ byte.toNat < 0xF5) :
    utf8SeqLen byte = width byte := by
  cases byte with
  | ofBitVec byte =>
    cases byte with
    | ofFin byte =>
      revert byte
      decide

set_option maxRecDepth 4096 in
theorem utf8SeqLen_tail (byte : UInt8) (tail : isTail byte = true) : utf8SeqLen byte = 0 := by
  cases byte with
  | ofBitVec byte =>
    cases byte with
    | ofFin byte =>
      revert byte
      decide

/-- A sequence that announces more bytes than there are. -/
def Unfinished (pending : Bytes) : Prop :=
  pending = [] ∨ ∃ lead rest, pending = lead :: rest ∧ rest.all isCont = true ∧
    pending.length < utf8SeqLen lead

theorem utf8Scan_rest (left : Nat) (text : Bytes) :
    Unfinished (text.drop (utf8Scan left text)) := by
  have behind : ∀ {byte : UInt8} {rest : Bytes} {count : Nat}, Unfinished (rest.drop count) →
      Unfinished ((byte :: rest).drop (1 + count)) := by
    intro byte rest count unfinished
    rw [Nat.add_comm, drop_succ_cons]
    exact unfinished
  fun_induction utf8Scan left text with
  | case1 => exact .inl rfl
  | case2 left byte rest ih => exact behind ih
  | case3 byte rest _ _ ih => exact behind ih
  | case4 byte rest _ _ more tails => exact .inr ⟨byte, rest, rfl, tails, more⟩
  | case5 byte rest _ _ _ _ ih => exact behind ih
  | case6 byte rest _ _ _ _ ih => exact behind ih
  | case7 byte rest _ _ _ _ ih => exact behind ih

theorem utf8Scan_le (left : Nat) (text : Bytes) : utf8Scan left text ≤ text.length := by
  fun_induction utf8Scan left text <;> simp only [length_cons, length_nil] <;> omega

theorem utf8Scan_skip (skipped more : Bytes) :
    utf8Scan skipped.length (skipped ++ more) = skipped.length + utf8Scan 0 more := by
  induction skipped with
  | nil => simp
  | cons byte skipped ih =>
    rw [length_cons, cons_append, utf8Scan, ih]
    omega

theorem utf8Scan_char {char : Bytes} (one : isChar char = true) (more : Bytes) :
    utf8Scan 0 (char ++ more) = char.length + utf8Scan 0 more := by
  obtain ⟨lead, rest, rfl, _, tails, length⟩ := isChar_shape one
  have announced : utf8SeqLen lead = rest.length + 1 :=
    (utf8SeqLen_lead lead (isChar_lead one)).trans length.symm
  have conts : ((rest ++ more).take rest.length).all isCont = true := by
    rw [take_left, all_eq_true]
    intro byte member
    rw [isCont_eq]
    exact tails byte member
  rw [cons_append, utf8Scan]
  simp only [announced]
  rw [if_neg (Nat.succ_ne_zero _), if_neg (by rw [length_append]; omega),
    Nat.add_sub_cancel, if_pos conts, utf8Scan_skip, length_cons]
  omega

/-- A sequence that goes on as a character is held back whole. -/
theorem utf8Scan_part {char text : Bytes} (one : isChar char = true) (part : text <+: char)
    (short : text.length < char.length) : utf8Scan 0 text = 0 := by
  obtain ⟨lead, rest, rfl, _, tails, length⟩ := isChar_shape one
  cases text with
  | nil => rfl
  | cons first text =>
    rw [cons_prefix_cons] at part
    obtain ⟨rfl, part⟩ := part
    have announced : utf8SeqLen first = rest.length + 1 :=
      (utf8SeqLen_lead first (isChar_lead one)).trans length.symm
    have conts : text.all isCont = true := by
      rw [all_eq_true]
      intro byte member
      rw [isCont_eq]
      exact tails byte (part.subset member)
    rw [utf8Scan]
    simp only [announced]
    rw [if_neg (Nat.succ_ne_zero _), if_pos (by simpa using short), if_pos conts]

/-- What is emitted of a text that arrives in parts ends where a character ends. -/
theorem utf8Scan_valid {text seen : Bytes} (valid : Valid text)
    (agrees : text <+: seen ∨ seen <+: text) (inside : utf8Scan 0 seen ≤ text.length) :
    Valid (text.drop (utf8Scan 0 seen)) := by
  induction valid using Valid.chars generalizing seen with
  | nil => simp [Valid.nil]
  | @cons char behind one valid ih =>
    have leading := prefix_append char behind
    by_cases short : seen.length < char.length
    · have part : seen <+: char := by
        rcases agrees with less | more
        · exact prefix_of_prefix_length_le (prefix_refl _) (leading.trans less) (Nat.le_of_lt short)
        · exact prefix_of_prefix_length_le more leading (Nat.le_of_lt short)
      rw [utf8Scan_part one part short]
      exact .cons one valid
    · have whole : char <+: seen := by
        rcases agrees with less | more
        · exact leading.trans less
        · exact prefix_of_prefix_length_le leading more (Nat.le_of_not_lt short)
      obtain ⟨rest, rfl⟩ := whole
      rw [prefix_append_right_inj, prefix_append_right_inj] at agrees
      rw [utf8Scan_char one, length_append] at inside
      rw [utf8Scan_char one, ← drop_drop, drop_left]
      exact ih agrees (by omega)

theorem Detokenizer.push_eq (skipSpecial : Bool) (pending : Bytes) (token : Token) :
    push M skipSpecial pending token =
      ((pending ++ M.tokenToPiece token (!skipSpecial)).take
        (utf8CompletePrefix (pending ++ M.tokenToPiece token (!skipSpecial))),
       (pending ++ M.tokenToPiece token (!skipSpecial)).drop
        (utf8CompletePrefix (pending ++ M.tokenToPiece token (!skipSpecial)))) := by
  unfold push
  dsimp only
  split
  · rename_i none
    rw [none]
    rfl
  · rfl

namespace Model

/-- The bytes of a token, as far as the request shows them. -/
def shown (M : Model) (params : SamplingParams) (token : Token) : Bytes :=
  if M.isEog token && params.skipSpecialTokens then []
  else M.tokenToPiece token (!params.skipSpecialTokens)

/-- The detokenized text of a token list. -/
def detokenized (M : Model) (params : SamplingParams) (tokens : List Token) : Bytes :=
  tokens.flatMap (M.shown params)

theorem detokenized_concat (params : SamplingParams) (tokens : List Token) (token : Token) :
    M.detokenized params (tokens ++ [token]) =
      M.detokenized params tokens ++ M.shown params token := by
  simp [detokenized]

/-- The detokenizer emits every byte once and holds back at most an unfinished sequence. -/
theorem spell_detokenized (params : SamplingParams) (tokens : List Token) :
    (M.spell params tokens).1 ++ (M.spell params tokens).2 = M.detokenized params tokens ∧
      Unfinished (M.spell params tokens).2 := by
  induction tokens using List.reverseRecOn with
  | nil => exact ⟨rfl, .inl rfl⟩
  | append_singleton tokens token ih =>
    rw [spell_concat, detokenized_concat, ← ih.1, spellStep, shown]
    split
    · rw [append_nil]
      exact ⟨rfl, ih.2⟩
    · dsimp only
      rw [Detokenizer.push_eq, append_assoc, take_append_drop, append_assoc]
      exact ⟨rfl, utf8Scan_rest 0 _⟩

variable {tokens longer : List Token}

theorem detokenized_grows (params : SamplingParams) (grows : tokens <+: longer) :
    M.detokenized params tokens <+: M.detokenized params longer := by
  obtain ⟨more, rfl⟩ := grows
  rw [detokenized, detokenized, flatMap_append]
  exact prefix_append _ _

theorem spell_leads (params : SamplingParams) (grows : tokens <+: longer) :
    (M.spell params tokens).1 <+: M.detokenized params longer := by
  apply List.IsPrefix.trans _ (M.detokenized_grows params grows)
  rw [← (M.spell_detokenized params tokens).1]
  exact prefix_append _ _

/-- The text of the first tokens ends where a character of the whole text ends. -/
theorem spell_boundary (params : SamplingParams) (early : tokens <+: longer) {text : Bytes}
    (part : text <+: M.detokenized params longer) (valid : Valid text)
    (inside : (M.spell params tokens).1.length ≤ text.length) :
    Valid (text.drop (M.spell params tokens).1.length) := by
  induction tokens using List.reverseRecOn with
  | nil => exact valid
  | append_singleton tokens token ih =>
    have before : tokens <+: longer := (prefix_append _ _).trans early
    have seen := M.detokenized_grows params early
    rw [detokenized_concat, ← (M.spell_detokenized params tokens).1] at seen
    rw [spell_concat] at inside ⊢
    unfold spellStep at inside ⊢
    unfold shown at seen
    split at inside
    · rename_i hidden
      rw [if_pos hidden]
      exact ih before inside
    · rename_i visible
      rw [if_neg visible] at seen ⊢
      dsimp only at inside ⊢
      rw [Detokenizer.push_eq, length_append, length_take, utf8CompletePrefix,
        Nat.min_eq_left (utf8Scan_le 0 _)] at inside ⊢
      rw [append_assoc] at seen
      generalize (M.spell params tokens).2 ++ M.tokenToPiece token (!params.skipSpecialTokens) =
        fresh at inside seen ⊢
      have agrees : text.drop (M.spell params tokens).1.length <+: fresh ∨
          fresh <+: text.drop (M.spell params tokens).1.length := by
        rcases prefix_or_prefix_of_prefix part seen with less | more
        · have rest := less.drop (M.spell params tokens).1.length
          rw [drop_left] at rest
          exact .inl rest
        · have rest := more.drop (M.spell params tokens).1.length
          rw [drop_left] at rest
          exact .inr rest
      rw [← drop_drop]
      apply utf8Scan_valid (ih before (by omega)) agrees
      rw [length_drop]
      exact Nat.le_sub_of_add_le' inside

end Model

theorem Gen.Going.detokenized {gen : Gen M} (going : gen.Going) :
    gen.text ++ gen.pending = M.detokenized gen.params gen.outputs := by
  rw [going.text, going.pending]
  exact (M.spell_detokenized _ _).1

theorem Occurs.getElem? {pattern text : Bytes} {pos index : Nat} (occurs : Occurs pattern text pos)
    (inside : index < pattern.length) : text[pos + index]? = pattern[index]? := by
  obtain ⟨more, same⟩ := occurs
  rw [← getElem?_drop, ← same, getElem?_append_left inside]

/-- A character cannot end within an unfinished sequence. -/
theorem Unfinished.char {text pending char : Bytes} {pos : Nat} (unfinished : Unfinished pending)
    (one : isChar char = true) (occurs : Occurs char (text ++ pending) pos) :
    pos + char.length ≤ text.length := by
  obtain ⟨lead, rest, same, start, tails, length⟩ := isChar_shape one
  have some : char ≠ [] := by rw [same]; exact cons_ne_nil _ _
  have bound := occurs.bound some
  rw [length_append] at bound
  by_contra behind
  rcases unfinished with none | ⟨first, more, shape, conts, short⟩
  · rw [none, length_nil] at bound
    omega
  have head : (text ++ pending)[text.length]? = Option.some first := by
    rw [getElem?_append_right (Nat.le_refl _), shape, Nat.sub_self]
    rfl
  rcases Nat.lt_trichotomy pos text.length with before | here | after
  · -- the first byte held back would be a tail byte of the character
    obtain ⟨index, later⟩ : ∃ index, text.length = pos + (index + 1) :=
      ⟨text.length - pos - 1, by omega⟩
    rw [later, occurs.getElem? (by omega), same, getElem?_cons_succ] at head
    rw [utf8SeqLen_tail first (tails first (mem_of_getElem? head))] at short
    exact Nat.not_lt_zero _ short
  · -- the character would be the sequence that is not finished
    have again := @Occurs.getElem? _ _ _ 0 occurs (length_pos_iff.mpr some)
    rw [Nat.add_zero, here, head, same] at again
    cases again
    rw [same] at one
    rw [utf8SeqLen_lead _ (isChar_lead one), ← length] at short
    omega
  · -- the lead byte of the character would be a tail byte
    have again := @Occurs.getElem? _ _ _ 0 occurs (length_pos_iff.mpr some)
    obtain ⟨index, later⟩ : ∃ index, pos = text.length + (index + 1) :=
      ⟨pos - text.length - 1, by omega⟩
    rw [Nat.add_zero, later, getElem?_append_right (by omega), shape, same,
      Nat.add_sub_cancel_left, getElem?_cons_succ, getElem?_cons_zero] at again
    have cont := all_eq_true.mp conts lead (mem_of_getElem? again)
    rw [isCont_eq, start] at cont
    cases cont

/-- What is held back completes no text. -/
theorem Unfinished.occurs {text pending pattern : Bytes} {pos : Nat}
    (unfinished : Unfinished pending) (valid : Valid pattern) (some : pattern ≠ [])
    (occurs : Occurs pattern (text ++ pending) pos) : Occurs pattern text pos := by
  obtain ⟨front, char, same, one⟩ := valid.last some
  have last : Occurs char (text ++ pending) (pos + front.length) := by
    obtain ⟨more, shape⟩ := occurs
    refine ⟨more, ?_⟩
    rw [← drop_drop, ← shape, same, append_assoc, drop_left]
  have bound := unfinished.char one last
  refine (occurs_append pending ?_).mp occurs
  rw [same, length_append]
  omega

end Iian
