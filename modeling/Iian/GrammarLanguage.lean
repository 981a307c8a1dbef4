import Iian.LeftRecursion
import Iian.Lib.Derivation

/- The language of a rule set, and that the stacks behind a text are what is left of its
leftmost derivations. -/
namespace Iian

open List Lib Derivation

/-- A character element: its items, and whether they are those it takes or those it refuses. -/
structure CharClass where
  items : List CharItem
  positive : Bool
deriving DecidableEq, Repr

def CharClass.hits (letters : CharClass) (chr : Nat) : Prop :=
  letters.items.any (CharItem.contains chr) = letters.positive

/-- The symbols of the sequence at the head of some elements. Token elements are left out. -/
def symbols : List GrammarElement → List (Derivation.Symbol Nat CharClass)
  | [] => []
  | element :: rest =>
    match element.type with
    | .endRule | .alt => []
    | .ruleRef => .call element.value :: symbols rest
    | .char | .charNot | .charAny =>
      .read ⟨(charItems (element :: rest)).1, element.type.isPositiveChar⟩ :: symbols rest
    | _ => symbols rest

variable {pos : GrammarPos} {stack next : GrammarStack} {word : List Nat}
    {rest : List (Derivation.Symbol Nat CharClass)} {ruleSet : RuleSet}

namespace GrammarRules

variable (rules : GrammarRules)

/-- The alternates of a rule. -/
def bodies (rule : Nat) : List (List (Derivation.Symbol Nat CharClass)) :=
  (alternates (rules.getD rule [])).map (fun start => symbols ((rules.getD rule []).drop start))

/-- A leftmost derivation from `form` to a text followed by `rest`. -/
abbrev Derives := Derivation.Derives rules.bodies CharClass.hits

/-- The texts of a sequence of symbols. -/
abbrev Spells := Derivation.Spells rules.bodies CharClass.hits

/-- What the positions of a stack still stand for. -/
def form (stack : GrammarStack) : List (Derivation.Symbol Nat CharClass) :=
  stack.flatMap (fun pos => symbols (rules.tail pos))

variable {rules}

theorem symbols_end (ends : (rules.type pos).isEndOfSequence = true) :
    symbols (rules.tail pos) = [] := by
  rw [type, element] at ends
  cases elements : rules.tail pos with
  | nil => rfl
  | cons element rest =>
    rw [elements, headD_cons] at ends
    rw [symbols]
    cases type : element.type <;> rw [type] at ends <;> first | rfl | cases ends

theorem form_push (pos : GrammarPos) (stack : GrammarStack) :
    rules.form (rules.push pos stack) = symbols (rules.tail pos) ++ rules.form stack := by
  unfold push
  split
  · rename_i ends
    rw [symbols_end ends]
    rfl
  · rfl

theorem symbols_ref (reference : rules.type pos = .ruleRef) :
    symbols (rules.tail pos) =
      .call (rules.element pos).value :: symbols (rules.tail (pos.skip 1)) := by
  rw [tail_skip]
  rw [type] at reference
  rw [element] at reference ⊢
  cases elements : rules.tail pos with
  | nil =>
    rw [elements] at reference
    cases reference
  | cons element rest =>
    rw [elements, headD_cons] at reference
    rw [symbols, reference]
    rfl

theorem symbols_inner {element : GrammarElement} (inner : element.type.isInner = true)
    (rest : List GrammarElement) : symbols (element :: rest) = symbols rest := by
  rw [symbols]
  cases type : element.type <;> rw [type] at inner <;> first | rfl | cases inner

/-- The loop over the items of a character element goes over its parts. -/
theorem symbols_charItems (elements : List GrammarElement) :
    symbols (elements.drop (charItems elements).2) = symbols elements.tail := by
  fun_induction charItems elements with
  | case1 => rfl
  | case2 => rfl
  | case3 first second upper item => exact (symbols_inner (by rw [upper]; rfl) []).symm
  | case4 first second upper item third rest more =>
    rename_i ih
    rw [tail_cons, symbols_inner (by rw [upper]; rfl), symbols_inner (by rw [more]; rfl)]
    exact ih
  | case5 first second upper item third rest => exact (symbols_inner (by rw [upper]; rfl) _).symm
  | case6 first second rest notUpper more items used shape ih =>
    rw [shape] at ih
    rw [tail_cons, symbols_inner (by rw [more]; rfl)]
    exact ih
  | case7 => rfl

theorem symbols_char (char : (rules.type pos).isChar = true) :
    symbols (rules.tail pos) =
      .read ⟨(charItems (rules.tail pos)).1, (rules.type pos).isPositiveChar⟩ ::
        symbols (rules.tail (pos.skip (charItems (rules.tail pos)).2)) := by
  rw [tail_skip, symbols_charItems]
  rw [type, element] at char ⊢
  cases elements : rules.tail pos with
  | nil =>
    rw [elements] at char
    cases char
  | cons element rest =>
    rw [elements, headD_cons] at char
    rw [symbols, headD_cons, tail_cons]
    cases type : element.type <;> rw [type] at char <;> first | rfl | cases char

theorem takes_iff {chr : Nat} : rules.takes pos chr = true ↔
    CharClass.hits ⟨(charItems (rules.tail pos)).1, (rules.type pos).isPositiveChar⟩ chr :=
  beq_iff_eq

/-- A step replaces a rule by one of its alternates. -/
theorem step_form (step : rules.machine.Step stack next) :
    ∃ rule body rest, rules.form stack = .call rule :: rest ∧ body ∈ rules.bodies rule ∧
      rules.form next = body ++ rest := by
  obtain ⟨called, listed⟩ := step
  rename_i pos base rule start
  obtain ⟨reference, rfl⟩ := calls_some called
  obtain ⟨first, member, rfl⟩ := mem_map.mp listed
  refine ⟨_, symbols (rules.tail ⟨(rules.element pos).value, first⟩),
    symbols (rules.tail (pos.skip 1)) ++ rules.form base, ?_, mem_map_of_mem member, ?_⟩
  · change symbols (rules.tail pos) ++ rules.form base = _
    rw [symbols_ref reference]
    rfl
  · change rules.form ((rules.sequence _).toList ++ ((rules.sequence _).toList ++ base)) = _
    rw [← push_eq, ← push_eq, form_push, form_push]

theorem reach_derives (path : rules.machine.Reach stack next)
    (later : rules.Derives (rules.form next) word rest) :
    rules.Derives (rules.form stack) word rest := by
  induction path using Relation.ReflTransGen.head_induction_on with
  | refl => exact later
  | head step _ ih =>
    obtain ⟨rule, body, behind, before, listed, after⟩ := step_form step
    rw [after] at ih
    rw [before]
    exact .call listed ih

/-- The stacks that a stack can turn into while it takes a text. -/
inductive Eats (rules : GrammarRules) : GrammarStack → List Nat → GrammarStack → Prop
  | done {stack next : GrammarStack} (path : rules.machine.Reach stack next) : Eats rules stack [] next
  | take {stack base next : GrammarStack} {pos : GrammarPos} {chr : Nat} {word : List Nat}
      (path : rules.machine.Reach stack (pos :: base)) (char : (rules.type pos).isChar = true)
      (taken : rules.takes pos chr = true)
      (later : Eats rules (rules.push (pos.skip (charItems (rules.tail pos)).2) base) word next) :
      Eats rules stack (chr :: word) next

theorem Eats.derives (eats : rules.Eats stack word next) :
    rules.Derives (rules.form stack) word (rules.form next) := by
  induction eats with
  | done path => exact reach_derives path (.done _)
  | @take stack base next pos chr word path char taken _ ih =>
    apply reach_derives path
    change rules.Derives (symbols (rules.tail pos) ++ rules.form base) _ _
    rw [form_push] at ih
    rw [symbols_char char, cons_append]
    exact .read (takes_iff.mp taken) ih

theorem Eats.proper (fine : rules.Shaped) (eats : rules.Eats stack word next)
    (proper : rules.Proper stack) : rules.Proper next := by
  induction eats with
  | done path => exact reaches_proper fine proper (reaches_iff.mpr path)
  | @take stack base next pos chr word path char taken _ ih =>
    have before := reaches_proper fine proper (reaches_iff.mpr path)
    exact ih (push_proper (fun other member => before other (mem_cons_of_mem _ member))
      (skip_char fine pos))

theorem Eats.reach {middle : GrammarStack} (eats : rules.Eats middle word next)
    (path : rules.machine.Reach stack middle) : rules.Eats stack word next := by
  cases eats with
  | done later => exact .done (path.trans later)
  | take later char taken rest => exact .take (path.trans later) char taken rest

theorem Eats.tail {stack middle next : GrammarStack} {word : List Nat}
    (eats : rules.Eats stack word middle) (path : rules.machine.Reach middle next) :
    rules.Eats stack word next := by
  induction eats with
  | done before => exact .done (before.trans path)
  | take before char taken _ ih => exact .take before char taken (ih path)

theorem char_or_ref (chars : rules.CharsOnly) (proper : rules.Proper [pos]) :
    rules.type pos = .ruleRef ∨ (rules.type pos).isChar = true := by
  obtain ⟨going, outer⟩ := proper pos mem_cons_self
  have nonterminal := chars.type pos
  revert going outer nonterminal
  cases rules.type pos <;> decide

/-- The first symbol that a stack stands for is the one on top. -/
theorem form_cons (chars : rules.CharsOnly) {base : GrammarStack}
    (proper : rules.Proper (pos :: base)) :
    rules.type pos = .ruleRef ∧ rules.form (pos :: base) = .call (rules.element pos).value ::
        rules.form (rules.push (pos.skip 1) base) ∨
      (rules.type pos).isChar = true ∧ rules.form (pos :: base) =
        .read ⟨(charItems (rules.tail pos)).1, (rules.type pos).isPositiveChar⟩ ::
          rules.form (rules.push (pos.skip (charItems (rules.tail pos)).2) base) := by
  have whole : rules.form (pos :: base) = symbols (rules.tail pos) ++ rules.form base := rfl
  obtain ⟨here, _⟩ := forall_mem_cons.mp proper
  rcases char_or_ref chars (forall_mem_singleton.mpr here) with reference | char
  · rw [symbols_ref reference, cons_append, ← form_push] at whole
    exact .inl ⟨reference, whole⟩
  · rw [symbols_char char, cons_append, ← form_push] at whole
    exact .inr ⟨char, whole⟩

theorem form_nil (chars : rules.CharsOnly) (proper : rules.Proper stack)
    (empty : rules.form stack = []) : stack = [] := by
  cases stack with
  | nil => rfl
  | cons pos base =>
    rcases form_cons chars proper with ⟨_, whole⟩ | ⟨_, whole⟩
    · rw [whole] at empty
      cases empty
    · rw [whole] at empty
      cases empty

/-- Every leftmost derivation from what a stack stands for is one that the stack can take. -/
theorem eats_of_derives (fine : rules.Shaped) (chars : rules.CharsOnly)
    (proper : rules.Proper stack) (derives : rules.Derives (rules.form stack) word rest) :
    ∃ next, rules.Eats stack word next ∧ rules.form next = rest := by
  generalize whole : rules.form stack = form at derives
  induction derives generalizing stack with
  | done form => exact ⟨stack, .done .refl, whole⟩
  | @call rule body form rest word listed _ ih =>
    cases stack with
    | nil => cases whole
    | cons pos base =>
      rcases form_cons chars proper with ⟨reference, shape⟩ | ⟨_, shape⟩
      · rw [shape] at whole
        cases whole
        obtain ⟨start, member, rfl⟩ := mem_map.mp listed
        have edge : Worklist.Edge rules.expandStack (pos :: base)
            (rules.push ⟨(rules.element pos).value, start⟩ (rules.push (pos.skip 1) base)) :=
          ⟨_, by rw [expandStack, reference], mem_map.mpr ⟨start, member, rfl⟩⟩
        have path := Relation.ReflTransGen.single edge
        obtain ⟨next, eats, left⟩ := ih (reaches_proper fine proper path) (form_push _ _)
        exact ⟨next, eats.reach (reaches_iff.mp path), left⟩
      · rw [shape] at whole
        cases whole
  | @read letters chr form rest word hit _ ih =>
    cases stack with
    | nil => cases whole
    | cons pos base =>
      rcases form_cons chars proper with ⟨_, shape⟩ | ⟨char, shape⟩
      · rw [shape] at whole
        cases whole
      rw [shape] at whole
      cases whole
      have behind := push_proper
        (fun other member => proper other (mem_cons_of_mem _ member)) (skip_char fine pos)
      obtain ⟨next, eats, left⟩ := ih behind rfl
      exact ⟨next, .take .refl char (takes_iff.mpr hit) eats, left⟩

theorem settled_of_char (char : (rules.type pos).isChar = true) (base : GrammarStack) :
    rules.settled (pos :: base) = true := by
  rw [settled, char, Bool.true_or]

/-- A stack takes a text by way of the stacks that it expands to. -/
theorem Eats.settles (eats : rules.Eats stack word next) (settled : rules.settled next = true) :
    ∃ middle, rules.machine.Reach stack middle ∧ rules.settled middle = true ∧
      rules.Eats middle word next := by
  cases eats with
  | done path => exact ⟨next, path, settled, .done .refl⟩
  | take path char taken later =>
    exact ⟨_, path, settled_of_char char _, .take .refl char taken later⟩

theorem mem_stacksAfter (unfolds : rules.Unfolds) (fine : rules.Shaped) {base : GrammarStack}
    (ready : rules.Ready (pos :: base)) (next : GrammarStack) :
    next ∈ rules.stacksAfter pos base ↔
      rules.machine.Reach (rules.push (pos.skip (charItems (rules.tail pos)).2) base) next ∧
        rules.settled next = true := by
  obtain ⟨found, advanced⟩ := unfolds _ (ready.behind fine)
  have after : rules.stacksAfter pos base = found := by rw [stacksAfter, advanced]
  rw [after, mem_advanceStack advanced, reaches_iff]

/-- The first code point of a text, and the others. -/
theorem eats_cons_iff (unfolds : rules.Unfolds) (fine : rules.Shaped) (ready : rules.Ready stack)
    (settled : rules.settled next = true) (chr : Nat) (word : List Nat) :
    rules.Eats stack (chr :: word) next ↔
      ∃ middle, rules.Consumes chr stack middle ∧ rules.Eats middle word next := by
  constructor
  · intro eats
    cases eats with
    | @take _ base _ pos _ _ path char taken later =>
      obtain rfl := reaches_settled ready.settled (reaches_iff.mpr path)
      obtain ⟨middle, path, fixed, eats⟩ := later.settles settled
      have nonterminal : (rules.type pos).isToken = false := by
        revert char
        cases rules.type pos <;> decide
      exact ⟨middle, ⟨pos, base, rfl, nonterminal, taken,
        (mem_stacksAfter unfolds fine ready middle).mpr ⟨path, fixed⟩⟩, eats⟩
  · rintro ⟨middle, ⟨pos, base, rfl, nonterminal, taken, after⟩, eats⟩
    obtain ⟨path, _⟩ := (mem_stacksAfter unfolds fine ready middle).mp after
    exact .take .refl (ready.char nonterminal) taken (eats.reach path)

end GrammarRules

namespace Grammar

variable {grammar : Grammar}

section

variable (fine : grammar.rules.Shaped) (unfolds : grammar.rules.Unfolds)
  (ready : ∀ stack ∈ grammar.stackSet, grammar.rules.Ready stack)

include fine unfolds ready

theorem acceptCodePoint_returns (chr : Nat) :
    ∃ stackSet, grammar.acceptCodePoint chr = .ok { grammar with stackSet := stackSet } ∧
      (∀ stack ∈ stackSet, grammar.rules.Ready stack) ∧
      ∀ next, next ∈ stackSet ↔ ∃ stack ∈ grammar.stackSet, grammar.rules.Consumes chr stack next := by
  obtain ⟨stackSet, turned, mem⟩ := GrammarRules.acceptChrs_returns fine unfolds chr ready
  refine ⟨stackSet, ?_, GrammarRules.acceptChrs_ready fine ready turned, mem⟩
  rw [acceptCodePoint, turned]
  rfl

/-- The stacks behind a text. -/
theorem acceptCodePoints_mem (word : List Nat) :
    ∃ stackSet, word.foldlM acceptCodePoint grammar = .ok { grammar with stackSet := stackSet } ∧
      ∀ next, next ∈ stackSet ↔ grammar.rules.settled next = true ∧
        ∃ stack ∈ grammar.stackSet, grammar.rules.Eats stack word next := by
  induction word generalizing grammar with
  | nil =>
    refine ⟨grammar.stackSet, rfl, fun next => ⟨?_, ?_⟩⟩
    · exact fun member => ⟨(ready next member).settled, next, member, .done .refl⟩
    rintro ⟨_, stack, member, ⟨path⟩⟩
    rw [GrammarRules.reaches_settled (ready stack member).settled
      (GrammarRules.reaches_iff.mpr path)]
    exact member
  | cons chr word ih =>
    obtain ⟨middles, turned, after, consumed⟩ := acceptCodePoint_returns fine unfolds ready chr
    obtain ⟨stackSet, fed, mem⟩ := @ih { grammar with stackSet := middles } fine unfolds after
    refine ⟨stackSet, ?_, fun next => ?_⟩
    · rw [foldlM_cons, turned]
      exact fed
    rw [mem]
    dsimp only
    refine and_congr_right (fun settled => ⟨?_, ?_⟩)
    · rintro ⟨middle, member, eats⟩
      obtain ⟨stack, first, step⟩ := (consumed middle).mp member
      exact ⟨stack, first, (GrammarRules.eats_cons_iff unfolds fine (ready stack first) settled chr
        word).mpr ⟨middle, step, eats⟩⟩
    · rintro ⟨stack, first, eats⟩
      obtain ⟨middle, step, eats⟩ := (GrammarRules.eats_cons_iff unfolds fine (ready stack first)
        settled chr word).mp eats
      exact ⟨middle, (consumed middle).mpr ⟨stack, first, step⟩, eats⟩

end

/-- The stacks that a text starts from. -/
theorem init_mem (unfolds : ruleSet.rules.Unfolds) (made : init ruleSet = .ok grammar)
    (next : GrammarStack) :
    next ∈ grammar.stackSet ↔ ruleSet.rules.settled next = true ∧
      ∃ start ∈ alternates (ruleSet.rules.getD ruleSet.start []),
        ruleSet.rules.machine.Reach (ruleSet.rules.push ⟨ruleSet.start, start⟩ []) next := by
  obtain ⟨_, stackSet, built, rfl⟩ := init_ok made
  obtain ⟨result, ended, mem⟩ := @Outcome.foldlM_ok _ _ (fun stackSet start =>
      ruleSet.rules.advanceStack (ruleSet.rules.push ⟨ruleSet.start, start⟩ []) stackSet)
    (fun front result => ∀ next, next ∈ result ↔ ruleSet.rules.settled next = true ∧
      ∃ start ∈ front, ruleSet.rules.machine.Reach (ruleSet.rules.push ⟨ruleSet.start, start⟩ []) next)
    (alternates (ruleSet.rules.getD ruleSet.start [])) [] (by simp) (by
      intro front start back acc shape kept
      obtain ⟨found, advanced⟩ := unfolds _ (ruleSet.start_proper start (by rw [shape]; simp))
      obtain ⟨result, added, mem⟩ := GrammarRules.advanceStack_add advanced acc
      refine ⟨result, added, fun next => ?_⟩
      rw [mem, kept, GrammarRules.mem_advanceStack advanced, GrammarRules.reaches_iff]
      simp only [mem_append, mem_singleton]
      grind)
  rw [built] at ended
  cases ended
  exact mem next

/-- The stacks behind a text, from the start. -/
theorem init_acceptCodePoints (unfolds : ruleSet.rules.Unfolds) (made : init ruleSet = .ok grammar)
    (word : List Nat) :
    ∃ stackSet, word.foldlM acceptCodePoint grammar = .ok { grammar with stackSet := stackSet } ∧
      ∀ next, next ∈ stackSet ↔ ruleSet.rules.settled next = true ∧
        ∃ start ∈ alternates (ruleSet.rules.getD ruleSet.start []),
          ruleSet.rules.Eats (ruleSet.rules.push ⟨ruleSet.start, start⟩ []) word next := by
  have sound := init_sound made
  have same := init_rules made
  obtain ⟨stackSet, fed, mem⟩ := acceptCodePoints_mem sound.shaped (same ▸ unfolds) sound.ready word
  refine ⟨stackSet, fed, fun next => ?_⟩
  rw [mem, same]
  refine and_congr_right (fun settled => ⟨?_, ?_⟩)
  · rintro ⟨stack, member, eats⟩
    obtain ⟨_, start, listed, path⟩ := (init_mem unfolds made stack).mp member
    exact ⟨start, listed, eats.reach path⟩
  · rintro ⟨start, listed, eats⟩
    obtain ⟨middle, path, fixed, eats⟩ := eats.settles settled
    exact ⟨middle, (init_mem unfolds made middle).mpr ⟨fixed, start, listed, path⟩, eats⟩

/-- A derivation from the start symbol begins with one of its alternates. -/
theorem derives_start (derives : ruleSet.rules.Derives [.call ruleSet.start] word rest) :
    (word = [] ∧ rest = [.call ruleSet.start]) ∨
      ∃ start ∈ alternates (ruleSet.rules.getD ruleSet.start []), ruleSet.rules.Derives
        (ruleSet.rules.form (ruleSet.rules.push ⟨ruleSet.start, start⟩ [])) word rest := by
  cases derives with
  | done => exact .inl ⟨rfl, rfl⟩
  | call listed later =>
    obtain ⟨start, member, rfl⟩ := mem_map.mp listed
    refine .inr ⟨start, member, ?_⟩
    rw [GrammarRules.form_push]
    exact later

theorem eats_derives {start : Nat}
    (listed : start ∈ alternates (ruleSet.rules.getD ruleSet.start []))
    (eats : ruleSet.rules.Eats (ruleSet.rules.push ⟨ruleSet.start, start⟩ []) word next) :
    ruleSet.rules.Derives [.call ruleSet.start] word (ruleSet.rules.form next) := by
  have derives := eats.derives
  rw [GrammarRules.form_push] at derives
  exact .call (mem_map.mpr ⟨start, listed, rfl⟩) derives

/-- The stacks behind a text are what its leftmost derivations leave: there is one if and only
if the text begins a derivation, and an empty one if and only if it is in the language. -/
theorem acceptCodePoints_language (ruleSet : RuleSet) (chars : ruleSet.rules.CharsOnly)
    (direct : ¬ruleSet.rules.machine.LeftRecursive) (word : List Nat) :
    ∃ grammar last, init ruleSet = .ok grammar ∧
      word.foldlM acceptCodePoint grammar = .ok last ∧
      (last.stackSet ≠ [] ↔ ∃ rest, ruleSet.rules.Derives [.call ruleSet.start] word rest) ∧
      ([] ∈ last.stackSet ↔ ruleSet.rules.Spells [.call ruleSet.start] word) ∧
      (last.allowsEog = true ↔ ruleSet.rules.Spells [.call ruleSet.start] word) := by
  have expands := GrammarRules.expands_of_direct ruleSet.shaped ruleSet.defined direct
  obtain ⟨grammar, made⟩ := init_returns
    (GrammarRules.leftRecursive_of_direct ruleSet.shaped ruleSet.defined direct) expands.unfolds
  obtain ⟨stackSet, fed, mem⟩ := init_acceptCodePoints expands.unfolds made word
  have complete : [] ∈ stackSet ↔ ruleSet.rules.Spells [.call ruleSet.start] word := by
    have settled : ruleSet.rules.settled [] = true := rfl
    rw [mem, and_iff_right settled]
    refine Iff.trans ⟨?_, ?_⟩ Derivation.derives_nil_iff
    · rintro ⟨start, listed, eats⟩
      exact eats_derives listed eats
    intro derives
    rcases derives_start derives with ⟨_, going⟩ | ⟨start, listed, derives⟩
    · cases going
    have proper := ruleSet.start_proper start listed
    obtain ⟨next, eats, empty⟩ :=
      GrammarRules.eats_of_derives ruleSet.shaped chars proper derives
    rw [GrammarRules.form_nil chars (eats.proper ruleSet.shaped proper) empty] at eats
    exact ⟨start, listed, eats⟩
  refine ⟨grammar, _, made, fed, ⟨?_, ?_⟩, complete, ?_⟩
  · intro some
    obtain ⟨next, member⟩ := exists_mem_of_ne_nil _ some
    obtain ⟨_, start, listed, eats⟩ := (mem next).mp member
    exact ⟨_, eats_derives listed eats⟩
  · rintro ⟨rest, derives⟩
    -- what a derivation has left expands to a stack that is among those found
    have reached : ∃ start ∈ alternates (ruleSet.rules.getD ruleSet.start []), ∃ next,
        ruleSet.rules.Eats (ruleSet.rules.push ⟨ruleSet.start, start⟩ []) word next := by
      rcases derives_start derives with ⟨rfl, _⟩ | ⟨start, listed, derives⟩
      · exact ⟨0, mem_cons_self, _, .done .refl⟩
      · obtain ⟨next, eats, _⟩ := GrammarRules.eats_of_derives ruleSet.shaped chars
          (ruleSet.start_proper start listed) derives
        exact ⟨start, listed, next, eats⟩
    obtain ⟨start, listed, next, eats⟩ := reached
    obtain ⟨found, advanced, some⟩ :=
      expands next (eats.proper ruleSet.shaped (ruleSet.start_proper start listed))
    obtain ⟨last, member⟩ := exists_mem_of_ne_nil _ some
    obtain ⟨path, settled⟩ := (GrammarRules.mem_advanceStack advanced last).mp member
    exact ne_nil_of_mem
      ((mem last).mpr ⟨settled, start, listed, eats.tail (GrammarRules.reaches_iff.mp path)⟩)
  · rw [← complete, allowsEog, contains_iff_mem]

/-- The text `ab` under `root ::= "a" root "b" | ""`. -/
theorem acceptCodePoints_nested :
    ∃ grammar last, init nestedRules = .ok grammar ∧
      [97, 98].foldlM acceptCodePoint grammar = .ok last ∧
      (last.stackSet ≠ [] ↔ ∃ rest, nestedRules.rules.Derives [.call 0] [97, 98] rest) ∧
      ([] ∈ last.stackSet ↔ nestedRules.rules.Spells [.call 0] [97, 98]) ∧
      (last.allowsEog = true ↔ nestedRules.rules.Spells [.call 0] [97, 98]) :=
  acceptCodePoints_language nestedRules (by unfold GrammarRules.CharsOnly; decide)
    nestedRules_direct [97, 98]

end Grammar

end Iian
