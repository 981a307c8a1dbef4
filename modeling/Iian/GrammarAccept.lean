import Iian.GrammarFilter
import Iian.GrammarStacks

/- When the calls of the grammar engine return, and that a token which is approved can be
consumed. -/
namespace Iian

open List Lib

variable {stack base : GrammarStack} {newStacks result current : List GrammarStack}
    {pos : GrammarPos} {token : Token} {next : Grammar}

namespace GrammarRules

/-- A stack of a grammar between two tokens. -/
structure Ready (rules : GrammarRules) (stack : GrammarStack) : Prop where
  proper : rules.Proper stack
  settled : rules.settled stack = true

/-- The expansion of every stack over the rules ends. -/
def Unfolds (rules : GrammarRules) : Prop :=
  ∀ stack, rules.Proper stack → ∃ found, rules.advanceStack stack [] = .ok found

/-- The expansion of every stack over the rules ends and leaves a stack. Without it the rules
are left recursive, possibly behind a symbol that derives the empty string. -/
def Expands (rules : GrammarRules) : Prop :=
  ∀ stack, rules.Proper stack → ∃ found, rules.advanceStack stack [] = .ok found ∧ found ≠ []

/-- No element matches whole tokens. -/
def CharsOnly (rules : GrammarRules) : Prop :=
  ∀ rule ∈ rules, ∀ element ∈ rule, element.type.isToken = false

variable {rules : GrammarRules} {stackSet : List GrammarStack}

theorem Expands.unfolds (expands : rules.Expands) : rules.Unfolds := by
  intro stack proper
  obtain ⟨found, advanced, _⟩ := expands stack proper
  exact ⟨found, advanced⟩

theorem advanceStack_ready (fine : rules.Shaped) (proper : rules.Proper stack)
    (old : ∀ other ∈ newStacks, rules.Ready other)
    (advanced : rules.advanceStack stack newStacks = .ok result) :
    ∀ other ∈ result, rules.Ready other := by
  unfold advanceStack at advanced
  split at advanced
  · rename_i ended
    cases advanced
    obtain ⟨visited, rfl, reached⟩ := Worklist.run_reaches ended
    intro other member
    rcases (mem_addStacks visited newStacks other).mp member with before | ⟨visit, settled⟩
    · exact old other before
    · exact ⟨reaches_proper fine proper ((reached other).mp visit), settled⟩
  · cases advanced
  · cases advanced

theorem Ready.char (ready : rules.Ready (pos :: base))
    (nonterminal : (rules.type pos).isToken = false) : (rules.type pos).isChar = true := by
  have settled := ready.settled
  rw [GrammarRules.settled, nonterminal, Bool.or_false] at settled
  exact settled

theorem matchChar_eq (char : (rules.type pos).isChar = true) (chr : Nat) :
    rules.matchChar pos chr =
      .ok (rules.takes pos chr, pos.skip (charItems (rules.tail pos)).2) := by
  rw [matchChar, if_pos char]
  rfl

section

variable (fine : rules.Shaped)
include fine

/-- The stack behind a character element, before it is expanded. -/
theorem Ready.behind (ready : rules.Ready (pos :: base)) :
    rules.Proper (rules.push (pos.skip (charItems (rules.tail pos)).2) base) :=
  push_proper (fun other member => ready.proper other (mem_cons_of_mem _ member))
    (skip_char fine pos)

/-- The stack behind a token element. -/
theorem Ready.behind_token (ready : rules.Ready (pos :: base))
    (whole : (rules.type pos).isToken = true) : rules.Proper (rules.push (pos.skip 1) base) := by
  have closed : (rules.type pos).isOpen = false := by
    cases type : rules.type pos <;> rw [type] at whole <;> first | rfl | cases whole
  exact push_proper (fun other member => ready.proper other (mem_cons_of_mem _ member))
    (skip_outer fine closed)

theorem rejectCandidatesForStack_returns (expands : rules.Expands)
    {deeper : List GrammarStack → List GrammarCandidate → Outcome (List GrammarCandidate)}
    (returns : ∀ stackSet, stackSet ≠ [] → (∀ stack ∈ stackSet, rules.Ready stack) →
      ∀ candidates, ∃ rejected, deeper stackSet candidates = .ok rejected)
    (ready : rules.Ready stack) (candidates : List GrammarCandidate) :
    ∃ rejected, rules.rejectCandidatesForStack deeper stack candidates = .ok rejected := by
  cases stack with
  | nil => exact ⟨_, rfl⟩
  | cons pos base =>
    unfold rejectCandidatesForStack
    dsimp only
    split
    · exact ⟨_, rfl⟩
    rename_i nonterminal
    have char := ready.char (by simpa using nonterminal)
    have proper := ready.behind fine
    obtain ⟨found, advanced, left⟩ := expands _ proper
    have after := advanceStack_ready fine proper (forall_mem_nil _) advanced
    obtain ⟨later, ended⟩ := returns found left after
      ([] ++ (candidates.filter (rules.passes pos)).map GrammarCandidate.forth)
    rw [sortCandidates_eq char, Outcome.ok_bind]
    dsimp only
    rw [matchChar_eq char, Outcome.ok_bind]
    dsimp only
    rw [advanced, Outcome.ok_bind, ended, Outcome.ok_bind]
    exact ⟨_, rfl⟩

/-- The filter returns when the expansions do. -/
theorem rejectCandidates_returns (expands : rules.Expands) (depth : Nat) :
    ∀ stackSet, stackSet ≠ [] → (∀ stack ∈ stackSet, rules.Ready stack) →
      ∀ candidates, ∃ rejected, rules.rejectCandidates depth stackSet candidates = .ok rejected := by
  induction depth with
  | zero =>
    intro stackSet some ready candidates
    rw [rejectCandidates, if_neg (by simpa using some)]
    split <;> exact ⟨_, rfl⟩
  | succ depth ih =>
    intro stackSet some ready candidates
    rw [rejectCandidates, if_neg (by simpa using some)]
    split
    · exact ⟨_, rfl⟩
    obtain ⟨rejected, ended, _⟩ := @Outcome.foldlM_ok _ _
      (fun rejects stack =>
        rules.rejectCandidatesForStack (rules.rejectCandidates depth) stack rejects)
      (fun _ _ => True) stackSet candidates trivial (by
        intro front stack back rejects shape _
        obtain ⟨next, turned⟩ := rejectCandidatesForStack_returns fine expands ih
          (ready stack (by rw [shape]; simp)) rejects
        exact ⟨next, turned, trivial⟩)
    exact ⟨rejected, ended⟩

/-- What a stack becomes when its character element takes a code point. -/
def Consumes (rules : GrammarRules) (chr : Nat) (stack next : GrammarStack) : Prop :=
  ∃ pos base, stack = pos :: base ∧ (rules.type pos).isToken = false ∧
    rules.takes pos chr = true ∧ next ∈ rules.stacksAfter pos base

theorem acceptChr_returns (unfolds : rules.Unfolds)
    (ready : rules.Ready stack) (chr : Nat) (newStacks : List GrammarStack) :
    ∃ result, rules.acceptChr chr newStacks stack = .ok result ∧
      ∀ next, next ∈ result ↔ next ∈ newStacks ∨ rules.Consumes chr stack next := by
  cases stack with
  | nil =>
    refine ⟨newStacks, rfl, fun next => (or_iff_left ?_).symm⟩
    rintro ⟨pos, base, shape, _⟩
    cases shape
  | cons pos base =>
    have here : ∀ next, rules.Consumes chr (pos :: base) next ↔ (rules.type pos).isToken = false ∧
        rules.takes pos chr = true ∧ next ∈ rules.stacksAfter pos base := by
      refine fun next => ⟨?_, fun consumed => ⟨pos, base, rfl, consumed⟩⟩
      rintro ⟨_, _, shape, consumed⟩
      cases shape
      exact consumed
    simp only [here]
    unfold acceptChr
    dsimp only
    split
    · rename_i token
      exact ⟨newStacks, rfl, by simp [token]⟩
    rename_i nonterminal
    rw [matchChar_eq (ready.char (by simpa using nonterminal)), Outcome.ok_bind]
    dsimp only
    split
    · rename_i taken
      obtain ⟨found, advanced⟩ := unfolds _ (ready.behind fine)
      obtain ⟨result, added, mem⟩ := advanceStack_add advanced newStacks
      refine ⟨result, added, fun next => ?_⟩
      have after : rules.stacksAfter pos base = found := by rw [stacksAfter, advanced]
      rw [mem, after]
      simp [nonterminal, taken]
    · rename_i refused
      exact ⟨newStacks, rfl, by simp [refused]⟩

theorem acceptChr_ready (ready : rules.Ready stack) {chr : Nat}
    (old : ∀ other ∈ newStacks, rules.Ready other)
    (accepted : rules.acceptChr chr newStacks stack = .ok result) :
    ∀ other ∈ result, rules.Ready other := by
  cases stack with
  | nil =>
    cases accepted
    exact old
  | cons pos base =>
    unfold acceptChr at accepted
    dsimp only at accepted
    split at accepted
    · cases accepted
      exact old
    obtain ⟨⟨found, posAfter⟩, matched, rest⟩ := Outcome.bind_eq_ok accepted
    obtain ⟨_, shape⟩ := matchChar_ok matched
    cases shape
    dsimp only at rest
    split at rest
    · exact advanceStack_ready fine (ready.behind fine) old rest
    · cases rest
      exact old

/-- The stacks behind one code point. -/
theorem acceptChrs_returns (unfolds : rules.Unfolds) (chr : Nat)
    (ready : ∀ stack ∈ current, rules.Ready stack) :
    ∃ result, current.foldlM (rules.acceptChr chr) [] = .ok result ∧
      ∀ next, next ∈ result ↔ ∃ stack ∈ current, rules.Consumes chr stack next := by
  apply Outcome.foldlM_ok (fun front result =>
    ∀ next, next ∈ result ↔ ∃ stack ∈ front, rules.Consumes chr stack next)
  · simp
  intro front stack back acc shape kept
  obtain ⟨result, accepted, mem⟩ := acceptChr_returns fine unfolds
    (ready stack (by rw [shape]; simp)) chr acc
  refine ⟨result, accepted, fun next => ?_⟩
  rw [mem, kept]
  simp only [mem_append, mem_singleton]
  grind

theorem acceptChrs_ready {chr : Nat}
    (ready : ∀ stack ∈ current, rules.Ready stack)
    (accepted : current.foldlM (rules.acceptChr chr) [] = .ok result) :
    ∀ stack ∈ result, rules.Ready stack := by
  refine @Outcome.foldlM_keeps _ _ _ (fun result => ∀ stack ∈ result, rules.Ready stack) current ?_
    _ _ (forall_mem_nil _) accepted
  intro stack member acc next old turned
  exact acceptChr_ready fine (ready stack member) old turned

theorem acceptCodePoints_ready (codePoints : List Nat)
    {survivors : List GrammarStack} (ready : ∀ stack ∈ current, rules.Ready stack)
    (accepted : rules.acceptCodePoints codePoints current = .ok survivors) :
    ∀ stack ∈ survivors, rules.Ready stack := by
  induction codePoints generalizing current with
  | nil =>
    cases accepted
    exact ready
  | cons chr codePoints ih =>
    obtain ⟨next, turned, rest⟩ := Outcome.bind_eq_ok accepted
    have after := acceptChrs_ready fine ready turned
    split at rest
    · cases rest
      exact after
    · exact ih after rest

end

theorem CharsOnly.type (chars : rules.CharsOnly) (pos : GrammarPos) :
    (rules.type pos).isToken = false :=
  @type_of_all rules (fun type => type.isToken = false) chars rfl pos

/-- No token element that matches the token is met while there is more of its text. -/
def Clear (rules : GrammarRules) (token : Token) : List Nat → GrammarStack → Prop
  | [], _ => True
  | chr :: codePoints, stack =>
    (∀ pos ∈ stack.head?, (rules.type pos).isToken = true → rules.matchToken pos token = false) ∧
      ∀ next, rules.Consumes chr stack next → Clear rules token codePoints next

theorem CharsOnly.clear (chars : rules.CharsOnly) (token : Token) (codePoints : List Nat)
    (stack : GrammarStack) : rules.Clear token codePoints stack := by
  induction codePoints generalizing stack with
  | nil => exact trivial
  | cons chr codePoints ih =>
    refine ⟨?_, fun next _ => ih next⟩
    intro pos _ whole
    rw [chars.type pos] at whole
    cases whole

/-- A stack that does not refuse the text of a token survives its code points. -/
theorem acceptCodePoints_returns (fine : rules.Shaped) (unfolds : rules.Unfolds) (token : Token)
    (utf8 : PartialUtf8) (codePoints : List Nat) (ready : ∀ stack ∈ current, rules.Ready stack) :
    ∃ survivors, rules.acceptCodePoints codePoints current = .ok survivors ∧
      (0 ∉ codePoints → ∀ stack ∈ current, rules.Clear token codePoints stack →
        rules.refuses token utf8 (codePoints ++ [0]) stack = false → survivors ≠ []) := by
  induction codePoints generalizing current with
  | nil => exact ⟨current, rfl, fun _ stack member _ _ => ne_nil_of_mem member⟩
  | cons chr codePoints ih =>
    obtain ⟨next, turned, consumed⟩ := acceptChrs_returns fine unfolds chr ready
    obtain ⟨survivors, ended, left⟩ := ih (acceptChrs_ready fine ready turned)
    rw [acceptCodePoints, turned, Outcome.ok_bind]
    -- the stack behind `chr` that does not refuse the rest is among the next ones
    have follows : 0 ∉ chr :: codePoints → ∀ stack ∈ current,
        rules.Clear token (chr :: codePoints) stack →
        rules.refuses token utf8 (chr :: codePoints ++ [0]) stack = false →
        ∃ other ∈ next, rules.Clear token codePoints other ∧
          rules.refuses token utf8 (codePoints ++ [0]) other = false := by
      rintro nonzero stack member ⟨apart, clear⟩ allowed
      rw [mem_cons, not_or] at nonzero
      cases stack with
      | nil => simp [refuses, Ne.symm nonzero.1] at allowed
      | cons pos base =>
        rw [cons_append, refuses] at allowed
        split at allowed
        · rename_i whole
          rw [if_neg (Ne.symm nonzero.1), apart pos rfl whole] at allowed
          cases allowed
        · rename_i nonterminal
          rw [if_neg (Ne.symm nonzero.1), Bool.or_eq_false_iff, Bool.not_eq_false',
            all_eq_false] at allowed
          obtain ⟨taken, other, after, allowed⟩ := allowed
          have step : rules.Consumes chr (pos :: base) other :=
            ⟨pos, base, rfl, by simpa using nonterminal, taken, after⟩
          exact ⟨other, (consumed other).mpr ⟨_, member, step⟩, clear other step,
            by simpa using allowed⟩
    split
    · rename_i empty
      refine ⟨next, rfl, ?_⟩
      intro nonzero stack member clear allowed
      obtain ⟨other, inside, _⟩ := follows nonzero stack member clear allowed
      exact ne_nil_of_mem inside
    · refine ⟨survivors, ended, ?_⟩
      intro nonzero stack member clear allowed
      obtain ⟨other, inside, later, rest⟩ := follows nonzero stack member clear allowed
      exact left (fun zero => nonzero (mem_cons_of_mem _ zero)) other inside later rest

theorem mem_addNew (survivors newStacks : List GrammarStack) (other : GrammarStack) :
    other ∈ survivors.foldl (fun newStacks stack =>
      if newStacks.contains stack then newStacks else newStacks ++ [stack]) newStacks ↔
      other ∈ newStacks ∨ other ∈ survivors := by
  induction survivors generalizing newStacks with
  | nil => simp
  | cons stack survivors ih =>
    rw [foldl_cons, ih, mem_cons]
    by_cases old : stack ∈ newStacks
    · rw [if_pos (by simpa using old)]
      grind
    · rw [if_neg (by simpa using old), mem_append, mem_singleton]
      grind

theorem acceptTokenStack_ready (fine : rules.Shaped) (ready : rules.Ready stack)
    {codePoints : List Nat} (old : ∀ other ∈ newStacks, rules.Ready other)
    (accepted : rules.acceptTokenStack token codePoints newStacks stack = .ok result) :
    ∀ other ∈ result, rules.Ready other := by
  cases stack with
  | nil =>
    cases accepted
    exact old
  | cons pos base =>
    unfold acceptTokenStack at accepted
    dsimp only at accepted
    split at accepted
    · rename_i whole
      split at accepted
      · exact advanceStack_ready fine (ready.behind_token fine whole) old accepted
      · cases accepted
        exact old
    · obtain ⟨survivors, through, final⟩ := Outcome.bind_eq_ok accepted
      have left := acceptCodePoints_ready fine codePoints (forall_mem_singleton.mpr ready) through
      cases final
      intro other member
      rcases (mem_addNew survivors newStacks other).mp member with before | survived
      · exact old other before
      · exact left other survived

/-- A stack that lets the text of a token through, and meets no matching token element within
it. -/
structure Survives (rules : GrammarRules) (token : Token) (utf8 : PartialUtf8)
    (codePoints : List Nat) (stack : GrammarStack) : Prop where
  nonzero : 0 ∉ codePoints
  text : codePoints ≠ [] ∨ utf8.nRemain ≠ 0
  clear : (∀ pos ∈ stack.head?, (rules.type pos).isToken = false) →
    rules.Clear token codePoints stack
  allowed : rules.refuses token utf8 (codePoints ++ [0]) stack = false

variable {token : Token} {utf8 : PartialUtf8} {codePoints : List Nat}

/-- An empty stack refuses every text. -/
theorem Survives.some (survives : rules.Survives token utf8 codePoints stack) : stack ≠ [] := by
  rintro rfl
  have allowed := survives.allowed
  cases codePoints with
  | nil =>
    simp only [refuses, Bool.or_eq_false_iff, decide_eq_false_iff_not, not_not] at allowed
    exact survives.text.elim (fun front => front rfl) (fun left => left allowed.2)
  | cons chr codePoints =>
    simp only [refuses, cons_append, headD_cons, Bool.or_eq_false_iff,
      decide_eq_false_iff_not, not_not] at allowed
    have zero : chr = 0 := not_not.mp (of_decide_eq_false allowed.1)
    exact survives.nonzero (by rw [zero]; exact mem_cons_self)

theorem Survives.matches (survives : rules.Survives token utf8 codePoints (pos :: base))
    (whole : (rules.type pos).isToken = true) : rules.matchToken pos token = true := by
  have allowed := survives.allowed
  cases codePoints with
  | nil =>
    rw [nil_append, refuses, if_pos whole, if_pos rfl] at allowed
    exact (survives.text.elim (fun front => front rfl) (of_decide_eq_false allowed)).elim
  | cons chr codePoints =>
    have nonzero : chr ≠ 0 := fun zero => survives.nonzero (zero ▸ mem_cons_self)
    rw [cons_append, refuses, if_pos whole, if_neg nonzero] at allowed
    simpa using allowed

theorem acceptTokenStack_returns (fine : rules.Shaped) (expands : rules.Expands)
    (ready : rules.Ready stack) (token : Token) (utf8 : PartialUtf8) (codePoints : List Nat)
    (newStacks : List GrammarStack) :
    ∃ result, rules.acceptTokenStack token codePoints newStacks stack = .ok result ∧
      (newStacks ≠ [] ∨ rules.Survives token utf8 codePoints stack → result ≠ []) := by
  cases stack with
  | nil => exact ⟨newStacks, rfl, fun left => left.elim id (fun survives => absurd rfl survives.some)⟩
  | cons pos base =>
    unfold acceptTokenStack
    dsimp only
    split
    · rename_i whole
      split
      · obtain ⟨found, advanced, some⟩ := expands _ (ready.behind_token fine whole)
        obtain ⟨result, added, mem⟩ := advanceStack_add advanced newStacks
        obtain ⟨other, member⟩ := exists_mem_of_ne_nil _ some
        exact ⟨result, added, fun _ => ne_nil_of_mem ((mem other).mpr (.inr member))⟩
      · rename_i refused
        exact ⟨newStacks, rfl, fun left => left.elim id
          (fun survives => absurd (survives.matches whole) refused)⟩
    · rename_i nonterminal
      obtain ⟨survivors, through, left⟩ := acceptCodePoints_returns fine expands.unfolds token utf8
        codePoints (forall_mem_singleton.mpr ready)
      rw [through, Outcome.ok_bind]
      refine ⟨_, rfl, ?_⟩
      have inside : ∀ other, other ∈ newStacks ∨ other ∈ survivors → _ :=
        fun other => (mem_addNew survivors newStacks other).mpr
      rintro (some | survives)
      · obtain ⟨other, member⟩ := exists_mem_of_ne_nil _ some
        exact ne_nil_of_mem (inside other (.inl member))
      have clear := survives.clear (by
        intro first here
        cases here
        simpa using nonterminal)
      obtain ⟨other, member⟩ := exists_mem_of_ne_nil _
        (left survives.nonzero _ mem_cons_self clear survives.allowed)
      exact ne_nil_of_mem (inside other (.inr member))

end GrammarRules

/-- Bytes leave a code point or an incomplete character. -/
theorem decodeUtf8Loop_some (bytes : Bytes) (value : Nat) (nRemain : Int) (codePoints : List Nat)
    (some : bytes ≠ [] ∨ codePoints ≠ [] ∨ nRemain ≠ 0) :
    (decodeUtf8Loop bytes value nRemain codePoints).1.dropLast ≠ [] ∨
      (decodeUtf8Loop bytes value nRemain codePoints).2.nRemain ≠ 0 := by
  fun_induction decodeUtf8Loop bytes value nRemain codePoints with
  | case1 value nRemain codePoints => simpa using some
  | case2 byte bytes value codePoints value' more ih => exact ih (by simp)
  | case3 byte bytes value nRemain codePoints more value' last ih =>
    exact ih (.inr (.inr (by omega)))
  | case4 byte bytes value nRemain codePoints full next invalid =>
    exact .inr (Int.ne_of_lt invalid)
  | case5 byte bytes value nRemain codePoints full next valid value' single ih => exact ih (by simp)
  | case6 byte bytes value nRemain codePoints full next valid value' several ih =>
    exact ih (.inr (.inr several))

/-- The bytes that continue a character either end with it or leave others. -/
theorem resumeUtf8_some {bytes rest : Bytes} {value last : Nat} {nRemain left : Int}
    (resumed : resumeUtf8 bytes value nRemain = some (rest, last, left)) (some : bytes ≠ []) :
    rest ≠ [] ∨ 0 < nRemain := by
  cases bytes with
  | nil => exact (some rfl).elim
  | cons byte bytes =>
    rw [resumeUtf8] at resumed
    split at resumed
    · cases resumed
      exact .inl (cons_ne_nil _ _)
    · exact .inr (by omega)

theorem RuleSet.start_proper (ruleSet : RuleSet) (start : Nat)
    (listed : start ∈ alternates (ruleSet.rules.getD ruleSet.start [])) :
    ruleSet.rules.Proper (ruleSet.rules.push ⟨ruleSet.start, start⟩ []) :=
  GrammarRules.push_proper (forall_mem_nil _) (GrammarRules.alternate_outer ruleSet.shaped listed)

namespace Grammar

variable {isEog : Token → Bool} {piece : Token → Bytes} {grammar : Grammar}

theorem decode_some (text : hasText piece token = true) :
    (grammar.decode piece token).1.dropLast ≠ [] ∨ (grammar.decode piece token).2.nRemain ≠ 0 := by
  have bytes : (piece token).takeWhile (· ≠ 0) ≠ [] := by
    unfold hasText at text
    cases shape : piece token with
    | nil => simp [shape] at text
    | cons byte rest =>
      rw [shape, headD_cons] at text
      rw [takeWhile_cons, if_pos text]
      exact cons_ne_nil _ _
  unfold decode decodeUtf8
  split
  · exact .inr (by decide)
  rename_i rest value left resumed
  apply decodeUtf8Loop_some
  rcases resumeUtf8_some resumed bytes with others | continued
  · exact .inl others
  · by_cases complete : left = 0
    · exact .inr (.inl (by simp [continued, complete]))
    · exact .inr (.inr complete)

/-- A grammar between two tokens. -/
structure Sound (grammar : Grammar) : Prop where
  shaped : grammar.rules.Shaped
  ready : ∀ stack ∈ grammar.stackSet, grammar.rules.Ready stack
  some : grammar.rules.Expands → grammar.stackSet ≠ []

theorem init_ok {ruleSet : RuleSet} (made : init ruleSet = .ok grammar) :
    ruleSet.rules.leftRecursive = false ∧ ∃ stackSet,
      (alternates (ruleSet.rules.getD ruleSet.start [])).foldlM (fun stackSet start =>
        ruleSet.rules.advanceStack (ruleSet.rules.push ⟨ruleSet.start, start⟩ []) stackSet) [] =
          .ok stackSet ∧
      grammar = { rules := ruleSet.rules, stackSet := stackSet } := by
  unfold init at made
  split at made
  · cases made
  rename_i direct
  dsimp only at made
  split at made
  · rename_i stackSet built
    cases made
    exact ⟨by simpa using direct, stackSet, built, rfl⟩
  · cases made
  · cases made

theorem accept_ok (accepted : grammar.accept isEog piece token = .ok next) :
    next = grammar ∨ isEog token = false ∧ next.stackSet ≠ [] ∧
      grammar.stackSet.foldlM (grammar.rules.acceptTokenStack token
        (grammar.decode piece token).1.dropLast) [] = .ok next.stackSet ∧
      next = { grammar with
        stackSet := next.stackSet, partialUtf8 := (grammar.decode piece token).2 } := by
  unfold accept at accepted
  split at accepted
  · split at accepted
    · cases accepted
      exact .inl rfl
    · cases accepted
  · rename_i other
    obtain ⟨newStacks, turned, rest⟩ := Outcome.bind_eq_ok accepted
    split at rest
    · cases rest
    · rename_i some
      cases rest
      exact .inr ⟨by simpa using other, by simpa using some, turned, rfl⟩

theorem init_rules {ruleSet : RuleSet} (made : init ruleSet = .ok grammar) :
    grammar.rules = ruleSet.rules := by
  obtain ⟨_, stackSet, _, rfl⟩ := init_ok made
  rfl

theorem accept_rules (accepted : grammar.accept isEog piece token = .ok next) :
    next.rules = grammar.rules := by
  obtain rfl | ⟨_, _, _, shape⟩ := accept_ok accepted
  · rfl
  · rw [shape]

theorem init_sound {ruleSet : RuleSet} (made : init ruleSet = .ok grammar) : grammar.Sound := by
  obtain ⟨_, stackSet, built, rfl⟩ := init_ok made
  refine ⟨ruleSet.shaped, ?_, ?_⟩
  · refine @Outcome.foldlM_keeps _ _ _ (fun result => ∀ stack ∈ result, ruleSet.rules.Ready stack)
      _ ?_ _ _ (forall_mem_nil _) built
    intro start listed acc next old turned
    exact GrammarRules.advanceStack_ready ruleSet.shaped (ruleSet.start_proper start listed) old turned
  · intro expands
    obtain ⟨result, ended, kept⟩ := @Outcome.foldlM_ok _ _ (fun stackSet start =>
        ruleSet.rules.advanceStack (ruleSet.rules.push ⟨ruleSet.start, start⟩ []) stackSet)
      (fun front result => front ≠ [] → result ≠ [])
      (alternates (ruleSet.rules.getD ruleSet.start [])) [] (fun none => absurd rfl none) (by
        intro front start back acc shape _
        obtain ⟨found, advanced, some⟩ :=
          expands _ (ruleSet.start_proper start (by rw [shape]; simp))
        obtain ⟨result, added, mem⟩ := GrammarRules.advanceStack_add advanced acc
        obtain ⟨other, member⟩ := exists_mem_of_ne_nil _ some
        exact ⟨result, added, fun _ => ne_nil_of_mem ((mem other).mpr (.inr member))⟩)
    rw [built] at ended
    cases ended
    exact kept (cons_ne_nil _ _)

theorem accept_sound (sound : grammar.Sound)
    (accepted : grammar.accept isEog piece token = .ok next) : next.Sound := by
  obtain rfl | ⟨_, some, turned, shape⟩ := accept_ok accepted
  · exact sound
  have kept := accept_rules accepted
  refine ⟨kept ▸ sound.shaped, ?_, fun _ => some⟩
  rw [kept]
  refine @Outcome.foldlM_keeps _ _ _ (fun result => ∀ stack ∈ result, grammar.rules.Ready stack)
    grammar.stackSet ?_ _ _ (forall_mem_nil _) turned
  intro stack member acc next old turned
  exact GrammarRules.acceptTokenStack_ready sound.shaped (sound.ready stack member) old turned

theorem rejects_returns (sound : grammar.Sound) (expands : grammar.rules.Expands)
    (candidates : List GrammarCandidate) : ∃ rejected, grammar.rejects candidates = .ok rejected :=
  GrammarRules.rejectCandidates_returns sound.shaped expands _ _ (sound.some expands) sound.ready
    candidates

theorem apply_returns {Logit : Type} [DecidableEq Logit] (sound : grammar.Sound)
    (expands : grammar.rules.Expands) (negInf : Logit) (row : List Logit) :
    ∃ left, grammar.apply isEog piece negInf row = .ok left := by
  unfold apply
  dsimp only
  obtain ⟨rejected, ended⟩ := rejects_returns sound expands _
  rw [ended]
  exact ⟨_, rfl⟩

/-- A token that is approved is consumed when the code points of its text are not zero and meet
no token element that matches it. -/
theorem accept_returns (sound : grammar.Sound) (expands : grammar.rules.Expands)
    (nonzero : isEog token = false → 0 ∉ (grammar.decode piece token).1.dropLast)
    (clear : isEog token = false → ∀ stack ∈ grammar.stackSet,
      (∀ pos ∈ stack.head?, (grammar.rules.type pos).isToken = false) →
        grammar.rules.Clear token (grammar.decode piece token).1.dropLast stack)
    (approved : grammar.approves isEog piece token = true) :
    ∃ next, grammar.accept isEog piece token = .ok next ∧ next.stackSet ≠ [] := by
  unfold approves at approved
  unfold accept
  by_cases eog : isEog token = true
  · rw [if_pos eog] at approved ⊢
    rw [if_pos approved]
    exact ⟨_, rfl, ne_nil_of_mem (contains_iff_mem.mp approved)⟩
  · rw [if_neg eog] at approved ⊢
    rw [Bool.not_eq_true] at eog
    rw [Bool.and_eq_true, Bool.not_eq_true', refused, all_eq_false] at approved
    obtain ⟨text, stack, member, allowed⟩ := approved
    rw [Bool.not_eq_true] at allowed
    have ends := decodeUtf8_ends (piece token) grammar.partialUtf8
    change (grammar.decode piece token).1.getLast? = _ at ends
    rw [← dropLast_append_getLast? 0 ends] at allowed
    have survives : grammar.rules.Survives token (grammar.decode piece token).2
        (grammar.decode piece token).1.dropLast stack :=
      ⟨nonzero eog, decode_some text, clear eog stack member, allowed⟩
    obtain ⟨newStacks, turned, left⟩ := Outcome.foldlM_ok
      (fun front result => stack ∈ front → result ≠ []) grammar.stackSet (by simp) (by
        intro before other after acc shape kept
        obtain ⟨result, accepted, some⟩ := GrammarRules.acceptTokenStack_returns sound.shaped expands
          (sound.ready other (by rw [shape]; simp)) token (grammar.decode piece token).2
          (grammar.decode piece token).1.dropLast acc
        refine ⟨result, accepted, ?_⟩
        intro member
        apply some
        rcases mem_append.mp member with earlier | here
        · exact .inl (kept earlier)
        · rw [← mem_singleton.mp here]
          exact .inr survives)
    have some := left member
    dsimp only
    rw [turned, Outcome.ok_bind, if_neg (by simpa using some)]
    exact ⟨_, rfl, some⟩

end Grammar

end Iian
