import Iian.Grammar
import Iian.Lib.Maxima
import Mathlib.Data.List.GetD

/- What the filters of the grammar engine say about a single token: it is rejected when every
stack refuses it. -/
namespace Iian

open List

variable {pos : GrammarPos} {candidates rejected : List GrammarCandidate} {Logit : Type}
    {negInf : Logit}

namespace GrammarRules

variable (rules : GrammarRules)

/-- Whether the character element at a position takes a code point. -/
def takes (pos : GrammarPos) (chr : Nat) : Bool :=
  (charItems (rules.tail pos)).1.any (CharItem.contains chr) == (rules.type pos).isPositiveChar

/-- The stacks behind the character element on top of a stack. -/
def stacksAfter (pos : GrammarPos) (base : GrammarStack) : List GrammarStack :=
  match rules.advanceStack (rules.push (pos.skip (charItems (rules.tail pos)).2) base) [] with
  | .ok stackSet => stackSet
  | _ => []

/-- A token that ends at a character element is refused when it ends within a character that
the element cannot take. -/
def refusesEnd (pos : GrammarPos) (utf8 : PartialUtf8) : Bool :=
  match rules.matchPartialChar pos utf8 with
  | .ok found => decide (utf8.nRemain ≠ 0) && !found
  | _ => false

/-- Whether a stack refuses the code points that are left of a token. -/
def refuses (id : Token) (utf8 : PartialUtf8) : List Nat → GrammarStack → Bool
  | codePoints, [] => codePoints.headD 0 ≠ 0 || utf8.nRemain ≠ 0
  | [], pos :: _ =>
    if (rules.type pos).isToken then utf8.nRemain ≠ 0 else rules.refusesEnd pos utf8
  | chr :: codePoints, pos :: base =>
    if (rules.type pos).isToken then
      if chr = 0 then utf8.nRemain ≠ 0 else !rules.matchToken pos id
    else if chr = 0 then rules.refusesEnd pos utf8
    else !rules.takes pos chr || (rules.stacksAfter pos base).all (refuses id utf8 codePoints)

variable {rules : GrammarRules}

theorem matchChar_ok {chr : Nat} {result : Bool × GrammarPos}
    (matched : rules.matchChar pos chr = .ok result) :
    (rules.type pos).isChar = true ∧
      result = (rules.takes pos chr, pos.skip (charItems (rules.tail pos)).2) := by
  unfold matchChar at matched
  split at matched
  · rename_i char
    cases matched
    exact ⟨char, rfl⟩
  · cases matched

theorem matchPartialChar_ok (char : (rules.type pos).isChar = true) (utf8 : PartialUtf8) :
    ∃ found, rules.matchPartialChar pos utf8 = .ok found := by
  unfold matchPartialChar
  rw [if_pos char]
  split
  · exact ⟨_, rfl⟩
  · exact ⟨_, rfl⟩

end GrammarRules

namespace GrammarCandidate

/-- The code points that are left, up to the terminating 0. -/
def rest (tok : GrammarCandidate) : List Nat := tok.codePoints.drop tok.offset

/-- The terminating 0 has not been passed. -/
structure Whole (tok : GrammarCandidate) : Prop where
  inside : tok.offset < tok.codePoints.length
  ends : tok.codePoints.getLast? = some 0

variable {tok : GrammarCandidate}

theorem Whole.rest_eq (whole : tok.Whole) : tok.rest = tok.codePoint :: tok.forth.rest := by
  have inside := whole.inside
  rw [rest, drop_eq_getElem_cons inside, codePoint, getD_eq_getElem?_getD,
    getElem?_eq_getElem inside]
  rfl

theorem Whole.forth (whole : tok.Whole) (more : tok.codePoint ≠ 0) : tok.forth.Whole := by
  refine ⟨?_, whole.ends⟩
  have inside := whole.inside
  change tok.offset + 1 < tok.codePoints.length
  by_contra last
  apply more
  have here : tok.offset = tok.codePoints.length - 1 := by omega
  have ends := whole.ends
  rw [getLast?_eq_getElem?, ← here] at ends
  rw [codePoint, getD_eq_getElem?_getD, ends]
  rfl

end GrammarCandidate

namespace GrammarRules

variable {rules : GrammarRules} {depth : Nat}

/-- The candidates that a character element rejects on the spot. -/
def stays (rules : GrammarRules) (pos : GrammarPos) (tok : GrammarCandidate) : Bool :=
  if tok.codePoint = 0 then rules.refusesEnd pos tok.partialUtf8
  else !rules.takes pos tok.codePoint

/-- The candidates that go on behind a character element. -/
def passes (rules : GrammarRules) (pos : GrammarPos) (tok : GrammarCandidate) : Bool :=
  tok.codePoint ≠ 0 && rules.takes pos tok.codePoint

theorem sortCandidate_eq (char : (rules.type pos).isChar = true)
    (rejects nexts : List GrammarCandidate) (tok : GrammarCandidate) :
    rules.sortCandidate pos (rejects, nexts) tok =
      .ok (rejects ++ [tok].filter (rules.stays pos),
        nexts ++ ([tok].filter (rules.passes pos)).map GrammarCandidate.forth) := by
  have matched : rules.matchChar pos tok.codePoint =
      .ok (rules.takes pos tok.codePoint, pos.skip (charItems (rules.tail pos)).2) := by
    rw [matchChar, if_pos char]
    rfl
  obtain ⟨found, partly⟩ := matchPartialChar_ok char tok.partialUtf8
  unfold sortCandidate stays passes refusesEnd
  by_cases ends : tok.codePoint = 0
  · by_cases complete : tok.partialUtf8.nRemain = 0
    · simp [ends, complete, partly]
    · cases found <;> simp [ends, complete, partly]
  · cases taken : rules.takes pos tok.codePoint <;> simp [ends, matched, taken]

theorem sortCandidates_eq (char : (rules.type pos).isChar = true)
    (candidates : List GrammarCandidate) (rejects nexts : List GrammarCandidate) :
    candidates.foldlM (rules.sortCandidate pos) (rejects, nexts) =
      .ok (rejects ++ candidates.filter (rules.stays pos),
        nexts ++ (candidates.filter (rules.passes pos)).map GrammarCandidate.forth) := by
  induction candidates generalizing rejects nexts with
  | nil => simp
  | cons tok candidates ih =>
    rw [foldlM_cons, sortCandidate_eq char, Outcome.ok_bind, ih, append_assoc,
      append_assoc, ← map_append, ← filter_append, ← filter_append]
    rfl

/-- `rejected` are the candidates that every stack refuses. -/
def Filters (rules : GrammarRules) (stackSet : List GrammarStack)
    (candidates rejected : List GrammarCandidate) : Prop :=
  ∀ tok, tok ∈ rejected ↔ tok ∈ candidates ∧
    stackSet.all (rules.refuses tok.id tok.partialUtf8 tok.rest) = true

/-- The candidates whose code points end within a number of levels. -/
def Within (depth : Nat) (candidates : List GrammarCandidate) : Prop :=
  ∀ tok ∈ candidates, tok.Whole ∧ tok.rest.length ≤ depth

/-- The candidates that go on behind a character element are shorter. -/
theorem Within.passes (within : Within (depth + 1) candidates) (pos : GrammarPos) :
    Within depth ((candidates.filter (rules.passes pos)).map GrammarCandidate.forth) := by
  intro other member
  obtain ⟨origin, passing, rfl⟩ := mem_map.mp member
  obtain ⟨listed, passed⟩ := mem_filter.mp passing
  rw [GrammarRules.passes, Bool.and_eq_true, decide_eq_true_eq] at passed
  obtain ⟨whole, short⟩ := within origin listed
  rw [whole.rest_eq, length_cons] at short
  exact ⟨whole.forth passed.1, by omega⟩

theorem Within.empty (within : Within 0 candidates) : candidates = [] := by
  apply eq_nil_iff_forall_not_mem.mpr
  intro tok member
  obtain ⟨whole, short⟩ := within tok member
  rw [whole.rest_eq] at short
  cases short

theorem filters_nil (stackSet : List GrammarStack) : rules.Filters stackSet [] [] := by
  intro tok
  simp

theorem rejectCandidatesForStack_filters
    {deeper : List GrammarStack → List GrammarCandidate → Outcome (List GrammarCandidate)}
    (below : ∀ stackSet candidates rejected, deeper stackSet candidates = .ok rejected →
      Within depth candidates → rules.Filters stackSet candidates rejected) {stack : GrammarStack}
    (ended : rules.rejectCandidatesForStack deeper stack candidates = .ok rejected)
    (within : Within (depth + 1) candidates) : rules.Filters [stack] candidates rejected := by
  have shape : ∀ tok ∈ candidates, tok.rest = tok.codePoint :: tok.forth.rest :=
    fun tok member => (within tok member).1.rest_eq
  intro tok
  rw [all_cons, all_nil, Bool.and_true]
  unfold rejectCandidatesForStack at ended
  split at ended
  · cases ended
    rw [mem_filter]
    apply and_congr_right
    intro member
    rw [shape tok member]
    rfl
  · rename_i pos base
    split at ended
    · rename_i terminal
      cases ended
      rw [mem_filter]
      apply and_congr_right
      intro member
      rw [shape tok member, refuses, if_pos terminal]
    · rename_i nonterminal
      obtain ⟨sorted, sorting, matching⟩ := Outcome.bind_eq_ok ended
      obtain ⟨after, matched, advancing⟩ := Outcome.bind_eq_ok matching
      obtain ⟨nextStacks, advanced, filtering⟩ := Outcome.bind_eq_ok advancing
      obtain ⟨nextRejects, rejecting, final⟩ := Outcome.bind_eq_ok filtering
      obtain ⟨char, shaped⟩ := matchChar_ok matched
      rw [sortCandidates_eq char, Outcome.ok.injEq] at sorting
      subst sorting shaped
      have following : rules.stacksAfter pos base = nextStacks := by
        rw [stacksAfter, advanced]
      rw [nil_append] at rejecting
      have next := below _ _ _ rejecting (within.passes pos)
      have behind : tok ∈ nextRejects.map GrammarCandidate.back ↔ tok ∈ candidates ∧
          rules.passes pos tok = true ∧
          nextStacks.all (rules.refuses tok.id tok.partialUtf8 tok.forth.rest) = true := by
        rw [mem_map]
        constructor
        · rintro ⟨other, member, rfl⟩
          obtain ⟨listed, refused⟩ := (next other).mp member
          obtain ⟨origin, passing, rfl⟩ := mem_map.mp listed
          exact ⟨(mem_filter.mp passing).1, (mem_filter.mp passing).2, refused⟩
        · rintro ⟨listed, passed, refused⟩
          refine ⟨tok.forth, (next tok.forth).mpr ⟨?_, refused⟩, rfl⟩
          exact mem_map_of_mem (mem_filter.mpr ⟨listed, passed⟩)
      cases final
      rw [mem_append, nil_append, mem_filter, behind, ← and_or_left]
      apply and_congr_right
      intro member
      rw [shape tok member, refuses, if_neg nonterminal, following, stays, passes]
      by_cases ends : tok.codePoint = 0
      · simp [ends]
      · cases rules.takes pos tok.codePoint <;> simp [ends]

/-- The loop over the stacks: what is rejected so far goes on to the next stack. -/
theorem rejectLoop_filters
    {forStack : GrammarStack → List GrammarCandidate → Outcome (List GrammarCandidate)}
    (one : ∀ stack some rejected, (∀ tok ∈ some, tok ∈ candidates) →
      forStack stack some = .ok rejected → rules.Filters [stack] some rejected)
    (stackSet : List GrammarStack) {some : List GrammarCandidate}
    (inside : ∀ tok ∈ some, tok ∈ candidates)
    (ended : stackSet.foldlM (fun rejects stack => forStack stack rejects) some = .ok rejected) :
    rules.Filters stackSet some rejected := by
  induction stackSet generalizing some with
  | nil =>
    cases ended
    intro tok
    simp
  | cons stack stackSet ih =>
    rw [foldlM_cons] at ended
    obtain ⟨middle, first, rest⟩ := Outcome.bind_eq_ok ended
    have here := one stack some middle inside first
    have later := ih (fun tok member => inside tok ((here tok).mp member).1) rest
    intro tok
    rw [later tok, here tok, all_cons, all_cons, all_nil, Bool.and_true,
      Bool.and_eq_true, and_assoc]

/-- The filter of the source rejects a candidate when every stack refuses it. -/
theorem rejectCandidates_filters (depth : Nat) {stackSet : List GrammarStack}
    (ended : rules.rejectCandidates depth stackSet candidates = .ok rejected)
    (within : Within depth candidates) : rules.Filters stackSet candidates rejected := by
  induction depth generalizing stackSet candidates rejected with
  | zero =>
    obtain rfl := within.empty
    rw [rejectCandidates] at ended
    split at ended
    · cases ended
    · cases ended
      exact filters_nil stackSet
  | succ depth ih =>
    rw [rejectCandidates] at ended
    split at ended
    · cases ended
    split at ended
    · rename_i empty
      rw [List.isEmpty_iff.mp empty]
      cases ended
      exact filters_nil stackSet
    · apply rejectLoop_filters _ stackSet (fun _ member => member) ended
      intro stack some rejected inside ended
      apply rejectCandidatesForStack_filters _ ended
        (fun tok member => within tok (inside tok member))
      intro stackSet candidates rejected ended within
      exact ih ended within

end GrammarRules

theorem decodeUtf8Loop_ends (bytes : Bytes) (value : Nat) (nRemain : Int) (codePoints : List Nat) :
    (decodeUtf8Loop bytes value nRemain codePoints).1.getLast? = some 0 := by
  fun_induction decodeUtf8Loop bytes value nRemain codePoints <;> first | assumption | simp

theorem decodeUtf8_ends (src : Bytes) (start : PartialUtf8) :
    (decodeUtf8 src start).1.getLast? = some 0 := by
  unfold decodeUtf8
  split
  · rfl
  · exact decodeUtf8Loop_ends _ _ _ _

namespace Grammar

section

variable (isEog : Token → Bool) (piece : Token → Bytes) (grammar : Grammar)

/-- Every stack refuses the text of the token. -/
def refused (token : Token) : Bool :=
  grammar.stackSet.all (grammar.rules.refuses token (grammar.decode piece token).2
    (grammar.decode piece token).1)

/-- The tokens that may come next: the end where a stack is empty, and otherwise tokens with a
text that some stack does not refuse. -/
def approves (token : Token) : Bool :=
  if isEog token then grammar.allowsEog else hasText piece token && !grammar.refused piece token

end

variable {isEog : Token → Bool} {piece : Token → Bytes} {grammar : Grammar}

theorem candidate_whole (index : Nat) (token : Token) : (grammar.candidate piece index token).Whole := by
  have ends := decodeUtf8_ends (piece token) grammar.partialUtf8
  refine ⟨?_, ends⟩
  apply length_pos_iff.mpr
  intro none
  change (decodeUtf8 (piece token) grammar.partialUtf8).1 = [] at none
  rw [none] at ends
  cases ends

section

variable (made : ∀ tok ∈ candidates, ∃ index token, tok = grammar.candidate piece index token)

include made

/-- The depth that `rejects` asks for is enough. -/
theorem candidates_within :
    GrammarRules.Within ((candidates.map (fun tok => tok.codePoints.length)).foldl max 0)
      candidates := by
  intro tok member
  have bound := (Lib.le_foldl_max id (candidates.map (fun tok => tok.codePoints.length)) 0).2 _
    (mem_map_of_mem member)
  obtain ⟨index, token, rfl⟩ := made tok member
  exact ⟨candidate_whole index token, bound⟩

theorem mem_rejects (ended : grammar.rejects candidates = .ok rejected) (tok : GrammarCandidate) :
    tok ∈ rejected ↔ tok ∈ candidates ∧ grammar.refused piece tok.id = true := by
  rw [GrammarRules.rejectCandidates_filters _ ended (candidates_within made) tok]
  apply and_congr_right
  intro member
  obtain ⟨index, token, rfl⟩ := made tok member
  rfl

end

theorem wouldAccept_ok {token : Token} {answer : Bool}
    (asked : grammar.wouldAccept isEog piece token = .ok answer) :
    answer = grammar.approves isEog piece token := by
  unfold wouldAccept at asked
  unfold approves
  by_cases eog : isEog token = true
  · rw [if_pos eog] at asked ⊢
    cases asked
    rfl
  · rw [if_neg eog] at asked ⊢
    cases text : hasText piece token with
    | false =>
      rw [text] at asked
      cases asked
      rfl
    | true =>
      rw [text] at asked
      obtain ⟨rejected, filtered, final⟩ := Outcome.bind_eq_ok asked
      cases final
      have mem := mem_rejects (fun tok member => ⟨0, token, mem_singleton.mp member⟩) filtered
      rw [Bool.eq_iff_iff, List.isEmpty_iff, eq_nil_iff_forall_not_mem]
      simp only [mem, mem_singleton, not_and, forall_eq, Bool.true_and, Bool.not_eq_true,
        Bool.not_eq_true']
      rfl

theorem getD_foldl_set (ids : List Nat) (row : List Logit) (id : Nat) :
    (ids.foldl (fun row id => row.set id negInf) row).getD id negInf =
      if id ∈ ids then negInf else row.getD id negInf := by
  induction ids generalizing row with
  | nil => simp
  | cons first ids ih =>
    rw [foldl_cons, ih]
    by_cases later : id ∈ ids
    · simp [later]
    simp only [later, if_false, mem_cons, or_false, getD_eq_getElem?_getD, getElem?_set]
    by_cases same : first = id
    · subst same
      by_cases inside : first < row.length <;> simp [inside]
    · simp [same, Ne.symm same]

theorem length_foldl_set (ids : List Nat) (row : List Logit) :
    (ids.foldl (fun row id => row.set id negInf) row).length = row.length :=
  foldlRecOn (motive := fun next => length next = row.length) ids _ rfl
    fun _ same _ _ => length_set.trans same

/-- The two entry points of the grammar agree: a row keeps the tokens that are approved. -/
theorem apply_ok [DecidableEq Logit] {row left : List Logit}
    (applied : grammar.apply isEog piece negInf row = .ok left) :
    left.length = row.length ∧ ∀ id : Nat, left.getD id negInf =
      if grammar.approves isEog piece id then row.getD id negInf else negInf := by
  obtain ⟨rejected, filtered, final⟩ := Outcome.bind_eq_ok applied
  cases final
  refine ⟨length_foldl_set _ _, ?_⟩
  intro id
  rw [getD_foldl_set]
  by_cases masked : row.getD id negInf = negInf
  · rw [masked, ite_self, ite_self]
  have inside : id < row.length := by
    by_contra outside
    exact masked (getD_eq_default _ _ (Nat.le_of_not_lt outside))
  have listed : id ∈ (List.range row.length).filter (fun id => row.getD id negInf ≠ negInf) := by
    rw [mem_filter, mem_range, decide_eq_true_iff]
    exact ⟨inside, masked⟩
  have mem := mem_rejects (by
    intro tok member
    obtain ⟨id, _, rfl⟩ := mem_map.mp member
    exact ⟨id, id, rfl⟩) filtered
  have indices : id ∈ rejected.map GrammarCandidate.index ↔
      (isEog id = false ∧ hasText piece id = true) ∧ grammar.refused piece id = true := by
    rw [mem_map]
    constructor
    · rintro ⟨tok, member, rfl⟩
      obtain ⟨listed, refused⟩ := (mem tok).mp member
      obtain ⟨id, text, rfl⟩ := mem_map.mp listed
      have spoken := (mem_filter.mp text).2
      rw [Bool.and_eq_true, Bool.not_eq_true'] at spoken
      exact ⟨spoken, refused⟩
    · rintro ⟨text, refused⟩
      refine ⟨grammar.candidate piece id id, (mem _).mpr ⟨?_, refused⟩, rfl⟩
      apply mem_map_of_mem
      rw [mem_filter, Bool.and_eq_true, Bool.not_eq_true']
      exact ⟨listed, text⟩
  have rejects : ∀ masks : List Nat, (id ∈ masks ↔ grammar.approves isEog piece id = false) →
      (if id ∈ masks then negInf else row.getD id negInf) =
        if grammar.approves isEog piece id then row.getD id negInf else negInf := by
    intro masks same
    cases approved : grammar.approves isEog piece id <;> simp [same, approved]
  apply rejects
  rw [mem_append, indices, mem_filter, and_iff_right listed]
  unfold approves
  cases isEog id <;> cases hasText piece id <;> cases grammar.refused piece id <;> simp

end Grammar

end Iian
