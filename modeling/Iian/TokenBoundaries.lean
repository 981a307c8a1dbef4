import Iian.Characters

/- Incremental detokenization does not depend on where the tokens end: scanning again from
the bytes held back agrees with one scan of everything. -/
namespace Iian

open List
open Lib.Utf8 (Valid Cut)

variable {M : Model}

variable {text : Bytes}

/-- A scan of more text first repeats the scan of its beginning, and then goes on from what
that scan has held back. -/
theorem utf8Scan_append {left : Nat} (inside : left ≤ text.length) (more : Bytes) :
    utf8Scan left (text ++ more) =
      utf8Scan left text + utf8Scan 0 (text.drop (utf8Scan left text) ++ more) := by
  have behind : ∀ {byte : UInt8} {rest : Bytes} {count next : Nat},
      next = count + utf8Scan 0 (rest.drop count ++ more) →
      1 + next = 1 + count + utf8Scan 0 ((byte :: rest).drop (1 + count) ++ more) := by
    intro byte rest count next same
    rw [Nat.add_comm 1 count, drop_succ_cons]
    omega
  have whole : ∀ {byte rest}, utf8SeqLen byte ≠ 0 → utf8SeqLen byte ≤ rest.length + 1 →
      utf8Scan 0 (byte :: rest ++ more) = 1 + utf8Scan
        (if (rest.take (utf8SeqLen byte - 1)).all isCont then utf8SeqLen byte - 1 else 0)
        (rest ++ more) := by
    intro byte rest announces room
    rw [cons_append, utf8Scan, if_neg announces, take_append_of_le_length (by omega),
      if_neg (by rw [length_append]; omega)]
    split <;> rfl
  fun_induction utf8Scan left text with
  | case1 left =>
    have first : left = 0 := by simpa using inside
    simp [first]
  | case2 left byte rest ih =>
    rw [cons_append, utf8Scan]
    exact behind (ih (by simpa using inside))
  | case3 byte rest len invalid ih =>
    rw [cons_append, utf8Scan]
    simp only [show utf8SeqLen byte = 0 from invalid, ↓reduceIte]
    exact behind (ih (Nat.zero_le _))
  | case4 byte rest len announces long tails => simp
  | case5 byte rest len announces long broken ih =>
    -- a byte that breaks the sequence stays where it is
    have still : ¬ ((rest ++ more).take (utf8SeqLen byte - 1)).all isCont = true := by
      rw [take_append, all_append, take_of_length_le (by omega)]
      simp [broken]
    have breaks : ¬ (rest ++ more).all isCont = true := by simp [broken]
    rw [cons_append, utf8Scan]
    rw [if_neg announces, if_neg still, if_neg breaks, ite_self]
    exact behind (ih (Nat.zero_le _))
  | case6 byte rest len announces short tails ih =>
    rw [whole announces (Nat.le_of_not_lt short), if_pos tails]
    exact behind (ih (Nat.sub_le_of_le_add (Nat.le_of_not_lt short)))
  | case7 byte rest len announces short broken ih =>
    rw [whole announces (Nat.le_of_not_lt short), if_neg broken]
    exact behind (ih (Nat.zero_le _))

theorem utf8SeqLen_le (byte : UInt8) : utf8SeqLen byte ≤ 4 := by
  unfold utf8SeqLen
  repeat' split
  all_goals omega

theorem Unfinished.length_le {pending : Bytes} (unfinished : Unfinished pending) :
    pending.length ≤ 3 := by
  rcases unfinished with none | ⟨lead, rest, _, _, short⟩
  · simp [none]
  · have most := utf8SeqLen_le lead
    omega

/-- A text may be cut behind what the scan of a part of it has emitted. -/
theorem utf8Scan_cut {seen : Bytes} (valid : Valid text) (part : seen <+: text) :
    Cut text (utf8Scan 0 seen) := by
  have bound := Nat.le_trans (utf8Scan_le 0 seen) part.length_le
  have rest := utf8Scan_valid valid (.inr part) bound
  rw [Cut]
  by_cases none : text.drop (utf8Scan 0 seen) = []
  · rw [← take_append_drop (utf8Scan 0 seen) text, none, append_nil] at valid
    exact valid
  · apply Valid.before _ rest none
    · exact []
    · simpa using valid

namespace Detokenizer

/-- `finish`: the emitted text and the new `pending_`. -/
def finish (pending : Bytes) : Bytes × Bytes := (pending, [])

/-- What each `push` of a sequence of tokens returns, and `pending_` behind the last one. -/
def pushAll (M : Model) (skipSpecial : Bool) (tokens : List Token) : List Bytes × Bytes :=
  tokens.foldl (fun state token =>
    let pushed := push M skipSpecial state.2 token
    (state.1 ++ [pushed.1], pushed.2)) ([], [])

/-- The concatenated pieces. -/
def pieces (M : Model) (skipSpecial : Bool) (tokens : List Token) : Bytes :=
  tokens.flatMap (fun token => M.tokenToPiece token (!skipSpecial))

section

variable (skipSpecial : Bool) (tokens : List Token)

theorem pushAll_concat (token : Token) :
    pushAll M skipSpecial (tokens ++ [token]) =
      ((pushAll M skipSpecial tokens).1 ++
          [(push M skipSpecial (pushAll M skipSpecial tokens).2 token).1],
        (push M skipSpecial (pushAll M skipSpecial tokens).2 token).2) := by
  rw [pushAll, foldl_concat]
  rfl

theorem pieces_concat (token : Token) :
    pieces M skipSpecial (tokens ++ [token]) =
      pieces M skipSpecial tokens ++ M.tokenToPiece token (!skipSpecial) := by
  simp [pieces]

/-- What has been emitted and what is held back, by one scan of everything. -/
theorem pushAll_eq :
    (pushAll M skipSpecial tokens).1.flatten =
      (pieces M skipSpecial tokens).take (utf8CompletePrefix (pieces M skipSpecial tokens)) ∧
    (pushAll M skipSpecial tokens).2 =
      (pieces M skipSpecial tokens).drop (utf8CompletePrefix (pieces M skipSpecial tokens)) := by
  induction tokens using List.reverseRecOn with
  | nil => exact ⟨rfl, rfl⟩
  | append_singleton tokens token ih =>
    rw [pushAll_concat, pieces_concat, push_eq, ih.2]
    generalize pieces M skipSpecial tokens = seen at ih ⊢
    generalize M.tokenToPiece token (!skipSpecial) = piece
    have again : utf8CompletePrefix (seen ++ piece) = utf8CompletePrefix seen +
        utf8CompletePrefix (seen.drop (utf8CompletePrefix seen) ++ piece) :=
      utf8Scan_append (Nat.zero_le _) piece
    have inside : utf8CompletePrefix seen ≤ seen.length := utf8Scan_le 0 seen
    rw [again, flatten_concat, ih.1, take_add, ← drop_drop,
      take_append_of_le_length inside, drop_append_of_le_length inside]
    exact ⟨rfl, rfl⟩

end

/-- Every `push` returns whole characters of a text that its tokens are part of. -/
theorem pushAll_valid {skipSpecial : Bool} {tokens : List Token} (valid : Valid text)
    (part : pieces M skipSpecial tokens <+: text) :
    ∀ out ∈ (pushAll M skipSpecial tokens).1, Valid out := by
  induction tokens using List.reverseRecOn with
  | nil => simp [pushAll]
  | append_singleton tokens token ih =>
    rw [pieces_concat] at part
    have before : pieces M skipSpecial tokens <+: text := (prefix_append _ _).trans part
    rw [pushAll_concat, push_eq, (pushAll_eq skipSpecial tokens).2]
    refine forall_mem_append.mpr ⟨ih before, forall_mem_singleton.mpr ?_⟩
    generalize pieces M skipSpecial tokens = seen at part before ⊢
    generalize M.tokenToPiece token (!skipSpecial) = piece at part ⊢
    have slice := (utf8Scan_cut valid before).between (utf8Scan_cut valid part)
    have inside := utf8Scan_le 0 seen
    rw [utf8Scan_append (Nat.zero_le _) piece, Nat.add_sub_cancel_left] at slice
    obtain ⟨more, rfl⟩ := part
    rw [append_assoc, drop_append_of_le_length inside, ← append_assoc,
      take_append_of_le_length (utf8Scan_le 0 _)] at slice
    exact slice

/-- A sequence of pushes is independent of the token boundaries. -/
structure Incremental (M : Model) (skipSpecial : Bool) (tokens : List Token) : Prop where
  emitted : (pushAll M skipSpecial tokens).1.flatten =
    (pieces M skipSpecial tokens).take (utf8CompletePrefix (pieces M skipSpecial tokens))
  held : (pushAll M skipSpecial tokens).2.length ≤ 3
  finished : (pushAll M skipSpecial tokens).1.flatten ++
    (finish (pushAll M skipSpecial tokens).2).1 = pieces M skipSpecial tokens
  valid : Valid (pieces M skipSpecial tokens) → ∀ out ∈ (pushAll M skipSpecial tokens).1, Valid out

theorem pushAll_incremental (M : Model) (skipSpecial : Bool) (tokens : List Token) :
    Incremental M skipSpecial tokens := by
  have state := @pushAll_eq M skipSpecial tokens
  refine ⟨state.1, ?_, ?_, ?_⟩
  · rw [state.2]
    exact (utf8Scan_rest 0 _).length_le
  · rw [finish, state.1, state.2, take_append_drop]
  · intro valid
    exact pushAll_valid valid (prefix_refl _)

-- `é` in two tokens, behind a stray tail byte
example : utf8CompletePrefix [0xA9, 0xC3] = 1 ∧ utf8CompletePrefix [0xA9, 0xC3, 0xA9] = 3 := by
  decide

end Detokenizer

end Iian
