import Iian.GrammarAccept
import Iian.Lib.Pushdown
import Mathlib.Algebra.Order.BigOperators.Group.List
import Mathlib.Algebra.Order.Group.Nat

/- When the expansion of stacks comes to an end.

The check for left recursion takes a rule for one that can be empty only if it has an empty
alternate. It misses rules that call themselves behind a symbol which is empty by way of
another rule. -/
namespace Iian

open List Lib

variable {pos : GrammarPos} {stack : GrammarStack} {ruleSet : RuleSet}

namespace GrammarRules

variable {rules : GrammarRules}

/-- The sequence that starts at a position, if there is anything in it. -/
def sequence (rules : GrammarRules) (pos : GrammarPos) : Option GrammarPos :=
  if (rules.type pos).isEndOfSequence then none else some pos

theorem push_eq (pos : GrammarPos) (stack : GrammarStack) :
    rules.push pos stack = (rules.sequence pos).toList ++ stack := by
  unfold push sequence
  split <;> rfl

theorem sequence_some {next : GrammarPos} (goes : rules.sequence pos = some next) :
    next = pos ∧ (rules.type pos).isEndOfSequence = false := by
  unfold sequence at goes
  split at goes
  · cases goes
  · rename_i going
    cases goes
    exact ⟨rfl, by simpa using going⟩

theorem tail_ne_nil (going : (rules.type pos).isEndOfSequence = false) : rules.tail pos ≠ [] := by
  intro ends
  rw [type, element, ends] at going
  cases going

/-- The rules as a grammar of sequences. -/
def machine (rules : GrammarRules) : Pushdown.Machine GrammarPos Nat where
  calls pos := if rules.type pos = .ruleRef then some (rules.element pos).value else none
  rest pos := rules.sequence (pos.skip 1)
  starts rule := (alternates (rules.getD rule [])).map (fun start => rules.sequence ⟨rule, start⟩)
  left pos := (rules.tail pos).length
  shrinks := by
    intro pos next goes
    obtain ⟨rfl, going⟩ := sequence_some goes
    have more := length_pos_of_ne_nil (tail_ne_nil going)
    rw [tail_skip, length_drop] at more
    rw [tail_skip, length_drop]
    omega

theorem calls_some {rule : Nat} (called : rules.machine.calls pos = some rule) :
    rules.type pos = .ruleRef ∧ (rules.element pos).value = rule := by
  dsimp only [machine] at called
  split at called
  · rename_i reference
    cases called
    exact ⟨reference, rfl⟩
  · cases called

/-- The loop of `llama_grammar_advance_stack` takes the steps of the grammar. -/
theorem edge_eq_step : Worklist.Edge rules.expandStack = rules.machine.Step := by
  funext stack next
  apply propext
  constructor
  · rintro ⟨more, expanded, member⟩
    cases stack with
    | nil =>
      cases expanded
      cases member
    | cons pos base =>
      rw [expandStack] at expanded
      split at expanded
      · rename_i reference
        cases expanded
        obtain ⟨start, listed, rfl⟩ := mem_map.mp member
        rw [push_eq, push_eq]
        exact .call (if_pos reference) (mem_map_of_mem listed)
      all_goals cases expanded
      all_goals cases member
  · rintro ⟨called, listed⟩
    rename_i pos base rule start
    obtain ⟨reference, rfl⟩ := calls_some called
    obtain ⟨first, member, rfl⟩ := mem_map.mp listed
    refine ⟨_, by rw [expandStack, reference], mem_map.mpr ⟨first, member, ?_⟩⟩
    rw [push_eq, push_eq]
    rfl

theorem reaches_iff {other : GrammarStack} :
    Worklist.Reaches rules.expandStack stack other ↔ rules.machine.Reach stack other := by
  unfold Worklist.Reaches
  rw [edge_eq_step]

/-- Every reference is to a rule. -/
def Defined (rules : GrammarRules) : Prop :=
  ∀ rule ∈ rules, ∀ element ∈ rule, element.type = .ruleRef → element.value < rules.length

theorem Defined.calls (defined : rules.Defined) (pos : GrammarPos) (rule : Nat)
    (called : rules.machine.calls pos = some rule) : rule ∈ Finset.range rules.length := by
  obtain ⟨reference, rfl⟩ := calls_some called
  exact Finset.mem_range.mpr (@element_of_all rules
    (fun element => element.type = .ruleRef → element.value < rules.length) defined nofun pos
    reference)

/-- The positions of all elements. -/
def places (rules : GrammarRules) : List GrammarPos :=
  rules.zipIdx.flatMap (fun entry =>
    (List.range entry.1.length).map (fun index => ⟨entry.2, index⟩))

theorem length_places : rules.places.length = (rules.map List.length).sum := by
  unfold places
  rw [length_flatMap]
  conv_rhs => rw [← zipIdx_map_fst 0 rules, map_map]
  congr 1
  apply map_congr_left
  intro entry _
  rw [length_map, length_range]
  rfl

theorem mem_places (going : (rules.type pos).isEndOfSequence = false) : pos ∈ rules.places := by
  have inside := tail_ne_nil going
  rw [tail, getD_eq_getElem?_getD] at inside
  cases found : rules[pos.rule]? with
  | none =>
    rw [found] at inside
    exact (inside drop_nil).elim
  | some rule =>
    rw [found, Option.getD_some, Ne, drop_eq_nil_iff, Nat.not_le] at inside
    refine mem_flatMap.mpr ⟨(rule, pos.rule), ?_, ?_⟩
    · exact mem_zipIdx_iff_getElem?.mpr found
    · exact mem_map.mpr ⟨pos.index, mem_range.mpr inside, rfl⟩

theorem length_laterAlternates (elements : List GrammarElement) (index : Nat) :
    (laterAlternates elements index).length ≤ elements.length := by
  fun_induction laterAlternates elements index <;> simp only [length_cons, length_nil] <;> omega

theorem length_alternates (rule : Nat) :
    (alternates (rules.getD rule [])).length ≤ (rules.map List.length).sum + 1 := by
  rw [alternates, length_cons]
  apply Nat.succ_le_succ
  apply (length_laterAlternates _ 0).trans
  rw [getD_eq_getElem?_getD]
  cases found : rules[rule]? with
  | none => exact Nat.zero_le _
  | some elements =>
    exact single_le_sum (fun _ _ => Nat.zero_le _) _ (mem_map_of_mem (mem_of_getElem? found))

theorem length_expandStack {more : List GrammarStack}
    (expanded : rules.expandStack stack = .ok more) :
    more.length ≤ (rules.map List.length).sum + 1 := by
  cases stack with
  | nil =>
    cases expanded
    exact Nat.zero_le _
  | cons pos base =>
    rw [expandStack] at expanded
    split at expanded
    · cases expanded
      rw [length_map]
      exact length_alternates _
    all_goals cases expanded
    all_goals exact Nat.zero_le _

/-- The loop ends for a stack over rules none of which grows for ever. -/
theorem advanceStack_ends (fine : rules.Shaped) (defined : rules.Defined)
    (bounded : ¬rules.machine.GrowsForEver) (proper : rules.Proper stack)
    (newStacks : List GrammarStack) :
    ∃ result, Worklist.run rules.expandStack rules.addStack (rules.expandFuel stack) [stack] []
      newStacks = some result := by
  let within := Pushdown.listsUpTo rules.places.toFinset (stack.length + rules.length)
  have inside : ∀ other, Worklist.Reaches rules.expandStack stack other → other ∈ within := by
    intro other path
    apply Pushdown.mem_listsUpTo
    · have short := Pushdown.Machine.reach_length bounded _ defined.calls (reaches_iff.mp path)
      rw [Finset.card_range] at short
      exact short
    · intro pos member
      exact mem_toFinset.mpr (mem_places (reaches_proper fine proper path pos member).1)
  apply Worklist.run_ends within (fun item _ more => length_expandStack) _ _ nodup_nil nofun
  · have few : rules.places.toFinset.card ≤ (rules.map List.length).sum := by
      rw [← length_places]
      exact toFinset_card_le _
    have count := (Pushdown.card_listsUpTo (stack.length + rules.length)).trans
      (Nat.pow_le_pow_left (Nat.succ_le_succ few) _)
    rw [expandFuel]
    exact Nat.add_le_add_right (Nat.mul_le_mul_right _ count) 1
  · exact forall_mem_singleton.mpr inside

/-- A stack over the rules never meets the middle of an element. -/
theorem run_not_error (fine : rules.Shaped) (proper : rules.Proper stack) (fuel : Nat)
    (newStacks : List GrammarStack) :
    Worklist.run rules.expandStack rules.addStack fuel [stack] [] newStacks ≠ some (.error ()) := by
  intro ended
  obtain ⟨start, single, other, path, failed⟩ := Worklist.run_error fuel ended
  rw [mem_singleton.mp single] at path
  obtain ⟨more, expanded, _⟩ := expandStack_proper fine (reaches_proper fine proper path)
  rw [failed] at expanded
  cases expanded

theorem unfolds_of_bounded (fine : rules.Shaped) (defined : rules.Defined)
    (bounded : ¬rules.machine.GrowsForEver) : rules.Unfolds := by
  intro stack proper
  obtain ⟨result, ended⟩ := advanceStack_ends fine defined bounded proper []
  have sound := run_not_error fine proper (rules.expandFuel stack) []
  rw [advanceStack, ended]
  rw [ended] at sound
  cases result with
  | ok result => exact ⟨result, rfl⟩
  | error => exact (sound rfl).elim

/-- The loop never ends when it reaches stacks of any size. -/
theorem run_never_ends (fine : rules.Shaped) (proper : rules.Proper stack)
    (unbounded : ∀ size, ∃ other, rules.machine.Reach stack other ∧ size ≤ other.length)
    (fuel : Nat) (newStacks : List GrammarStack) :
    Worklist.run rules.expandStack rules.addStack fuel [stack] [] newStacks = none := by
  cases ended : Worklist.run rules.expandStack rules.addStack fuel [stack] [] newStacks with
  | none => rfl
  | some result =>
    cases result with
    | error => exact (run_not_error fine proper fuel newStacks ended).elim
    | ok result =>
      obtain ⟨visited, _, reached⟩ := Worklist.run_reaches ended
      obtain ⟨other, path, long⟩ := unbounded ((visited.map List.length).sum + 1)
      have short : other.length ≤ (visited.map List.length).sum :=
        single_le_sum (fun _ _ => Nat.zero_le _) _
          (mem_map_of_mem ((reached other).mpr (reaches_iff.mpr path)))
      omega

/-- The loop of `llama_grammar_advance_stack` comes to an end for every stack over the rules. -/
def Ends (rules : GrammarRules) : Prop :=
  ∀ stack, rules.Proper stack → ∀ newStacks, ∃ fuel result,
    Worklist.run rules.expandStack rules.addStack fuel [stack] [] newStacks = some result

theorem ends_iff (fine : rules.Shaped) (defined : rules.Defined) :
    rules.Ends ↔ ¬rules.machine.GrowsForEver := by
  constructor
  · intro ends forEver
    obtain ⟨pos, rule, below, called, more, loop⟩ := forEver.loop
    have proper : rules.Proper [pos] := by
      intro other member
      rw [mem_singleton.mp member, (calls_some called).1]
      exact ⟨rfl, rfl⟩
    obtain ⟨fuel, result, ended⟩ := ends [pos] proper []
    rw [run_never_ends fine proper (Pushdown.Machine.loop_unbounded more loop)] at ended
    cases ended
  · intro bounded stack proper newStacks
    exact ⟨_, advanceStack_ends fine defined bounded proper newStacks⟩

end GrammarRules

namespace Outcome

variable {α β : Type}

/-- A call that comes back. One that does not has taken all memory. -/
def Returns (outcome : Outcome α) : Prop := outcome ≠ .threw "std::bad_alloc"

theorem returns_ok (value : α) : (Outcome.ok value).Returns := by
  intro stuck
  cases stuck

theorem returns_aborted : (Outcome.aborted : Outcome α).Returns := by
  intro stuck
  cases stuck

theorem Returns.bind {first : Outcome α} {rest : α → Outcome β} (returns : first.Returns)
    (later : ∀ value, first = .ok value → (rest value).Returns) : (first >>= rest).Returns := by
  cases first with
  | ok value => exact later value rfl
  | threw message =>
    intro stuck
    injection stuck with same
    exact returns (by rw [same])
  | aborted => exact returns_aborted

theorem returns_foldlM {turn : β → α → Outcome β} {items : List α}
    (one : ∀ item ∈ items, ∀ acc, (turn acc item).Returns) (acc : β) :
    (items.foldlM turn acc).Returns := by
  induction items generalizing acc with
  | nil => exact nofun
  | cons item items ih =>
    obtain ⟨here, later⟩ := forall_mem_cons.mp one
    rw [foldlM_cons]
    exact (here acc).bind (fun next _ => ih later next)

end Outcome

namespace GrammarRules

theorem Unfolds.add {rules : GrammarRules} (unfolds : rules.Unfolds) (proper : rules.Proper stack)
    (newStacks : List GrammarStack) :
    ∃ result, rules.advanceStack stack newStacks = .ok result := by
  obtain ⟨found, advanced⟩ := unfolds stack proper
  obtain ⟨result, added, _⟩ := advanceStack_add advanced newStacks
  exact ⟨result, added⟩

variable {rules : GrammarRules} (fine : rules.Shaped) (unfolds : rules.Unfolds)

include fine unfolds

theorem rejectCandidatesForStack_comes
    {deeper : List GrammarStack → List GrammarCandidate → Outcome (List GrammarCandidate)}
    (comes : ∀ stackSet, (∀ stack ∈ stackSet, rules.Ready stack) →
      ∀ candidates, (deeper stackSet candidates).Returns) (ready : rules.Ready stack)
    (candidates : List GrammarCandidate) :
    (rules.rejectCandidatesForStack deeper stack candidates).Returns := by
  cases stack with
  | nil => exact nofun
  | cons pos base =>
    unfold rejectCandidatesForStack
    dsimp only
    split
    · exact nofun
    rename_i nonterminal
    have char := ready.char (by simpa using nonterminal)
    have proper := ready.behind fine
    obtain ⟨found, advanced⟩ := unfolds _ proper
    have after := advanceStack_ready fine proper (forall_mem_nil _) advanced
    rw [sortCandidates_eq char, Outcome.ok_bind]
    dsimp only
    rw [matchChar_eq char, Outcome.ok_bind]
    dsimp only
    rw [advanced, Outcome.ok_bind]
    exact (comes found after _).bind (fun _ _ => nofun)

theorem rejectCandidates_comes (depth : Nat) (stackSet : List GrammarStack)
    (ready : ∀ stack ∈ stackSet, rules.Ready stack) (candidates : List GrammarCandidate) :
    (rules.rejectCandidates depth stackSet candidates).Returns := by
  induction depth generalizing stackSet candidates with
  | zero =>
    rw [rejectCandidates]
    split
    · exact Outcome.returns_aborted
    · split <;> exact Outcome.returns_ok _
  | succ depth ih =>
    rw [rejectCandidates]
    split
    · exact Outcome.returns_aborted
    split
    · exact Outcome.returns_ok _
    · exact Outcome.returns_foldlM (fun stack member rejects =>
        rejectCandidatesForStack_comes fine unfolds ih (ready stack member) rejects) candidates

theorem acceptChr_comes (chr : Nat) (ready : rules.Ready stack) (newStacks : List GrammarStack) :
    (rules.acceptChr chr newStacks stack).Returns := by
  cases stack with
  | nil => exact nofun
  | cons pos base =>
    unfold acceptChr
    dsimp only
    split
    · exact nofun
    rename_i nonterminal
    rw [matchChar_eq (ready.char (by simpa using nonterminal)), Outcome.ok_bind]
    dsimp only
    split
    · obtain ⟨result, advanced⟩ := unfolds.add (ready.behind fine) newStacks
      rw [advanced]
      exact nofun
    · exact nofun

theorem acceptCodePoints_comes (codePoints : List Nat) {current : List GrammarStack}
    (ready : ∀ stack ∈ current, rules.Ready stack) :
    (rules.acceptCodePoints codePoints current).Returns := by
  induction codePoints generalizing current with
  | nil => exact Outcome.returns_ok _
  | cons chr codePoints ih =>
    rw [acceptCodePoints]
    refine (Outcome.returns_foldlM (fun stack member =>
      acceptChr_comes fine unfolds chr (ready stack member)) []).bind ?_
    intro next turned
    split
    · exact Outcome.returns_ok _
    · exact ih (acceptChrs_ready fine ready turned)

theorem acceptTokenStack_comes (token : Token) (codePoints : List Nat) (ready : rules.Ready stack)
    (newStacks : List GrammarStack) :
    (rules.acceptTokenStack token codePoints newStacks stack).Returns := by
  cases stack with
  | nil => exact nofun
  | cons pos base =>
    unfold acceptTokenStack
    dsimp only
    split
    · rename_i whole
      split
      · obtain ⟨result, advanced⟩ := unfolds.add (ready.behind_token fine whole) newStacks
        rw [advanced]
        exact nofun
      · exact nofun
    · exact (acceptCodePoints_comes fine unfolds codePoints
        (forall_mem_singleton.mpr ready)).bind (fun _ _ => nofun)

end GrammarRules

namespace Grammar

variable {isEog : Token → Bool} {piece : Token → Bytes} {grammar : Grammar}

/-- A grammar that tokens have been accepted by. -/
inductive Reached (ruleSet : RuleSet) (isEog : Token → Bool) (piece : Token → Bytes) :
    Grammar → Prop
  | init {grammar : Grammar} (made : init ruleSet = .ok grammar) : Reached ruleSet isEog piece grammar
  | accept {grammar next : Grammar} {token : Token} (before : Reached ruleSet isEog piece grammar)
      (accepted : grammar.accept isEog piece token = .ok next) : Reached ruleSet isEog piece next

theorem Reached.sound (reached : Reached ruleSet isEog piece grammar) : grammar.Sound := by
  induction reached with
  | init made => exact init_sound made
  | accept _ accepted ih => exact accept_sound ih accepted

theorem Reached.rules (reached : Reached ruleSet isEog piece grammar) :
    grammar.rules = ruleSet.rules := by
  induction reached with
  | init made => exact init_rules made
  | accept _ accepted ih => exact (accept_rules accepted).trans ih

theorem emptyStackMessage_ne (token : Token) : emptyStackMessage piece token ≠ "std::bad_alloc" := by
  unfold emptyStackMessage
  dsimp only
  rw [String.append_assoc, String.append_assoc, String.append_assoc]
  intro same
  have first := congrArg (fun message => message.toList.head?) same
  rw [String.toList_append, head?_append] at first
  have unexpected : (toString "Unexpected empty grammar stack after accepting piece: ").toList.head? =
    some 'U' := by decide
  have standard : "std::bad_alloc".toList.head? = some 's' := by decide
  rw [unexpected, standard] at first
  simp at first

theorem accept_comes (sound : grammar.Sound) (unfolds : grammar.rules.Unfolds) (token : Token) :
    (grammar.accept isEog piece token).Returns := by
  unfold accept
  split
  · split <;> exact nofun
  dsimp only
  refine (Outcome.returns_foldlM (fun stack member =>
    GrammarRules.acceptTokenStack_comes sound.shaped unfolds token _
      (sound.ready stack member)) []).bind ?_
  intro newStacks _
  split
  · intro stuck
    injection stuck with same
    exact emptyStackMessage_ne token same
  · exact nofun

theorem apply_comes {Logit : Type} [DecidableEq Logit] (sound : grammar.Sound)
    (unfolds : grammar.rules.Unfolds) (negInf : Logit) (logits : List Logit) :
    (grammar.apply isEog piece negInf logits).Returns :=
  (GrammarRules.rejectCandidates_comes sound.shaped unfolds _ _ sound.ready _).bind
    (fun _ _ => nofun)

theorem init_returns (accepted : ruleSet.rules.leftRecursive = false)
    (unfolds : ruleSet.rules.Unfolds) : ∃ grammar, init ruleSet = .ok grammar := by
  obtain ⟨stackSet, built, _⟩ := @Outcome.foldlM_ok _ _ (fun stackSet start =>
      ruleSet.rules.advanceStack (ruleSet.rules.push ⟨ruleSet.start, start⟩ []) stackSet)
    (fun _ _ => True) (alternates (ruleSet.rules.getD ruleSet.start [])) [] trivial (by
      intro front start back acc shape _
      obtain ⟨result, advanced⟩ :=
        unfolds.add (ruleSet.start_proper start (by rw [shape]; simp)) acc
      exact ⟨result, advanced, trivial⟩)
  unfold init
  rw [accepted, if_neg (by decide)]
  dsimp only
  rw [built]
  exact ⟨_, rfl⟩

theorem init_threw {message : String} (accepted : ruleSet.rules.leftRecursive = false)
    (threw : ruleSet.rules.advanceStack (ruleSet.rules.push ⟨ruleSet.start, 0⟩ []) [] =
      .threw message) : init ruleSet = .error message := by
  unfold init
  rw [accepted, if_neg (by decide)]
  dsimp only
  rw [alternates, foldlM_cons, threw]
  rfl

/-- The calls of the engine come back in every state of a grammar, and the loop they share
comes to an end, unless a rule grows for ever. -/
theorem calls_return_iff (ruleSet : RuleSet) (accepted : ruleSet.rules.leftRecursive = false) :
    (ruleSet.rules.Ends ∧ (∃ grammar, init ruleSet = .ok grammar) ∧
      ∀ isEog piece grammar, Reached ruleSet isEog piece grammar →
        (∀ token, (grammar.accept isEog piece token).Returns) ∧
        ∀ (Logit : Type) [DecidableEq Logit] (negInf : Logit) logits,
          (grammar.apply isEog piece negInf logits).Returns) ↔
      ¬ruleSet.rules.machine.GrowsForEver := by
  constructor
  · exact fun ends => (GrammarRules.ends_iff ruleSet.shaped ruleSet.defined).mp ends.1
  intro bounded
  have unfolds := GrammarRules.unfolds_of_bounded ruleSet.shaped ruleSet.defined bounded
  refine ⟨(GrammarRules.ends_iff ruleSet.shaped ruleSet.defined).mpr bounded,
    init_returns accepted unfolds, ?_⟩
  intro isEog piece grammar reached
  rw [← reached.rules] at unfolds
  exact ⟨accept_comes reached.sound unfolds, fun _ _ => apply_comes reached.sound unfolds⟩

end Grammar

/-- `root ::= "a" root "b" | ""`. -/
def nestedRules : RuleSet where
  rules := [[⟨.char, 97⟩, ⟨.ruleRef, 0⟩, ⟨.char, 98⟩, ⟨.alt, 0⟩, ⟨.endRule, 0⟩]]
  start := 0
  shaped := by decide
  defined := by decide
  start_lt := by decide

/-- No rule of it starts with a call. -/
theorem nestedRules_opens {rule : Nat} (opens : nestedRules.rules.machine.Opens rule pos) :
    pos = ⟨0, 0⟩ := by
  induction opens with
  | @start pos listed =>
    cases rule with
    | zero =>
      have starts : nestedRules.rules.machine.starts 0 = [some ⟨0, 0⟩, none] := by decide
      rw [starts] at listed
      simpa using listed
    | succ rule =>
      have starts : nestedRules.rules.machine.starts (rule + 1) = [none] := rfl
      rw [starts] at listed
      simp at listed
  | next _ called _ _ _ ih =>
    rw [ih] at called
    cases called

theorem nestedRules_direct : ¬nestedRules.rules.machine.LeftRecursive := by
  rintro ⟨rule, cycle⟩
  obtain ⟨callee, ⟨pos, opens, called⟩, _⟩ := Relation.TransGen.head'_iff.mp cycle
  rw [nestedRules_opens opens] at called
  cases called

theorem Grammar.calls_return_nested :
    nestedRules.rules.Ends ∧ (∃ grammar, Grammar.init nestedRules = .ok grammar) ∧
      ∀ isEog piece grammar, Grammar.Reached nestedRules isEog piece grammar →
        (∀ token, (grammar.accept isEog piece token).Returns) ∧
        ∀ (Logit : Type) [DecidableEq Logit] (negInf : Logit) logits,
          (grammar.apply isEog piece negInf logits).Returns :=
  (Grammar.calls_return_iff nestedRules (by decide)).mpr
    (fun forEver => nestedRules_direct forEver.leftRecursive)

/-- `root ::= b root "x" | "y"` with `b ::= "c"?`. The parser makes a rule of its own of the
optional character, so `b` has no empty alternate. -/
def hiddenRules : RuleSet where
  rules := [[⟨.ruleRef, 1⟩, ⟨.ruleRef, 0⟩, ⟨.char, 120⟩, ⟨.alt, 0⟩, ⟨.char, 121⟩, ⟨.endRule, 0⟩],
    [⟨.ruleRef, 2⟩, ⟨.endRule, 0⟩], [⟨.char, 99⟩, ⟨.alt, 0⟩, ⟨.endRule, 0⟩]]
  start := 0
  shaped := by decide
  defined := by decide
  start_lt := by decide

theorem hiddenRules_loop : hiddenRules.rules.machine.Reach [⟨0, 0⟩] [⟨0, 0⟩, ⟨0, 2⟩] := by
  have call : Worklist.Edge hiddenRules.rules.expandStack [⟨0, 0⟩] [⟨1, 0⟩, ⟨0, 1⟩] :=
    ⟨_, rfl, by decide⟩
  have empty : Worklist.Edge hiddenRules.rules.expandStack [⟨1, 0⟩, ⟨0, 1⟩] [⟨0, 1⟩] :=
    ⟨_, rfl, by decide⟩
  have again : Worklist.Edge hiddenRules.rules.expandStack [⟨0, 1⟩] [⟨0, 0⟩, ⟨0, 2⟩] :=
    ⟨_, rfl, by decide⟩
  exact GrammarRules.reaches_iff.mp (((Relation.ReflTransGen.single call).tail empty).tail again)

/-- The check lets the rules pass, and the first call of the loop does not end. -/
theorem Grammar.init_never_ends :
    hiddenRules.rules.leftRecursive = false ∧ hiddenRules.rules.Proper [⟨0, 0⟩] ∧
      (∀ fuel newStacks, Worklist.run hiddenRules.rules.expandStack hiddenRules.rules.addStack fuel
        [[⟨0, 0⟩]] [] newStacks = none) ∧
      Grammar.init hiddenRules = .error "std::bad_alloc" := by
  have proper : hiddenRules.rules.Proper [⟨0, 0⟩] := by
    unfold GrammarRules.Proper
    decide
  have stuck := GrammarRules.run_never_ends hiddenRules.shaped proper
    (Pushdown.Machine.loop_unbounded (cons_ne_nil _ _) hiddenRules_loop)
  refine ⟨by decide, proper, stuck, Grammar.init_threw (by decide) ?_⟩
  have first : hiddenRules.rules.push ⟨hiddenRules.start, 0⟩ [] = [⟨0, 0⟩] := by decide
  rw [first, GrammarRules.advanceStack, stuck]

end Iian
