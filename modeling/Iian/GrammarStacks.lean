import Iian.Grammar

/- Stacks over a rule set: the positions that may stand on them, and what the expansion of a
stack gives. -/
namespace Iian

open List Lib

/-- The parts of a character element behind its first. -/
def GreType.isInner : GreType → Bool
  | .charRngUpper | .charAlt => true
  | _ => false

/-- The types that a part of a character element may follow. -/
def GreType.isOpen : GreType → Bool
  | .char | .charNot | .charRngUpper | .charAlt => true
  | _ => false

def headType (elements : List GrammarElement) : GreType := (elements.headD ⟨.endRule, 0⟩).type

variable {previous type : GreType} {elements : List GrammarElement} {start : Nat}
    {stack other : GrammarStack}

namespace GrammarRules

theorem follows_inner (follow : follows previous type = true) (closed : previous.isOpen = false) :
    type.isInner = false := by
  revert follow closed
  cases previous <;> cases type <;> decide

theorem not_inner (notUpper : type ≠ .charRngUpper) (notMore : type ≠ .charAlt) :
    type.isInner = false := by
  cases type <;> simp_all [GreType.isInner]

theorem follows_upper (follow : follows .charRngUpper type = true) (notMore : type ≠ .charAlt) :
    type.isInner = false := by
  apply not_inner _ notMore
  rintro rfl
  cases follow

theorem shaped_cons {element : GrammarElement} {rest : List GrammarElement} :
    shaped previous (element :: rest) = true ↔
      follows previous element.type = true ∧ shaped element.type rest = true := by
  rw [shaped, Bool.and_eq_true]

theorem shaped_head (fine : shaped previous elements = true) (closed : previous.isOpen = false) :
    (headType elements).isInner = false := by
  cases elements with
  | nil => rfl
  | cons element rest => exact follows_inner (shaped_cons.mp fine).1 closed

theorem shaped_drop (fine : shaped previous elements = true) (count : Nat) :
    ∃ last, shaped last (elements.drop count) = true := by
  induction count generalizing previous elements with
  | zero => exact ⟨previous, fine⟩
  | succ count ih =>
    cases elements with
    | nil => exact ⟨.endRule, rfl⟩
    | cons element rest => exact ih (shaped_cons.mp fine).2

/-- Behind the items of a character element another element begins. -/
theorem charItems_behind (elements : List GrammarElement) (fine : shaped previous elements = true) :
    (headType (elements.drop (charItems elements).2)).isInner = false := by
  fun_induction charItems elements generalizing previous with
  | case1 => rfl
  | case2 => rfl
  | case3 => rfl
  | case4 first second upper item third rest =>
    rename_i ih
    rw [shaped_cons, shaped_cons] at fine
    exact ih fine.2.2
  | case5 first second upper item third rest =>
    rename_i last
    rw [shaped_cons, shaped_cons, shaped_cons, upper] at fine
    exact follows_upper fine.2.2.1 last
  | case6 first second rest notUpper more items used shape ih =>
    rw [shaped_cons] at fine
    have behind := ih fine.2
    rw [shape] at behind
    exact behind
  | case7 first second rest notUpper notMore => exact not_inner notUpper notMore

/-- Behind every `|` another alternate begins. -/
theorem laterAlternates_shaped (elements : List GrammarElement) {index : Nat}
    (fine : shaped previous elements = true) (member : start ∈ laterAlternates elements index) :
    ∃ count, start = index + count ∧ shaped .alt (elements.drop count) = true := by
  induction elements generalizing index previous with
  | nil => cases member
  | cons element rest ih =>
    have behind := (shaped_cons.mp fine).2
    have later : start ∈ laterAlternates rest (index + 1) →
        ∃ count, start = index + count ∧ shaped .alt ((element :: rest).drop count) = true := by
      intro member
      obtain ⟨count, same, alternate⟩ := ih behind member
      exact ⟨count + 1, by omega, alternate⟩
    rw [laterAlternates] at member
    split at member
    · rename_i alt
      rcases mem_cons.mp member with here | member
      · rw [alt] at behind
        exact ⟨1, here, behind⟩
      · exact later member
    · cases member
    · exact later member

theorem alternates_shaped {rule : GrammarRule} (fine : shaped .alt rule = true)
    (member : start ∈ alternates rule) : shaped .alt (rule.drop start) = true := by
  rcases mem_cons.mp member with here | later
  · rw [here]
    exact fine
  · obtain ⟨count, same, alternate⟩ := laterAlternates_shaped rule fine later
    rw [same, Nat.zero_add]
    exact alternate

/-- Rules as the parser emits them. -/
def Shaped (rules : GrammarRules) : Prop := ∀ rule ∈ rules, shaped .alt rule = true

/-- A stack over the rules: its positions are the starts of elements. -/
def Proper (rules : GrammarRules) (stack : GrammarStack) : Prop :=
  ∀ pos ∈ stack, (rules.type pos).isEndOfSequence = false ∧ (rules.type pos).isInner = false

variable {rules : GrammarRules}

theorem tail_skip (pos : GrammarPos) (count : Nat) :
    rules.tail (pos.skip count) = (rules.tail pos).drop count := by
  rw [tail, tail, drop_drop]
  rfl

/-- A rule that is not defined reads as one without an alternate. -/
theorem getD_shaped (fine : rules.Shaped) (rule : Nat) :
    shaped .alt (rules.getD rule []) = true ∨ rules.getD rule [] = [] := by
  rw [getD_eq_getElem?_getD]
  cases found : rules[rule]? with
  | none => exact .inr rfl
  | some elements => exact .inl (fine elements (mem_of_getElem? found))

theorem tail_shaped (fine : rules.Shaped) (pos : GrammarPos) :
    ∃ previous, shaped previous (rules.tail pos) = true := by
  rcases getD_shaped fine pos.rule with defined | none
  · exact shaped_drop defined pos.index
  · rw [tail, none, drop_nil]
    exact ⟨.endRule, rfl⟩

theorem skip_outer (fine : rules.Shaped) {pos : GrammarPos}
    (closed : (rules.type pos).isOpen = false) : (rules.type (pos.skip 1)).isInner = false := by
  obtain ⟨previous, shape⟩ := tail_shaped fine pos
  change (headType (rules.tail (pos.skip 1))).isInner = false
  change (headType (rules.tail pos)).isOpen = false at closed
  rw [tail_skip]
  cases elements : rules.tail pos with
  | nil => rfl
  | cons element rest =>
    rw [elements] at closed shape
    exact shaped_head (shaped_cons.mp shape).2 closed

theorem skip_char (fine : rules.Shaped) (pos : GrammarPos) :
    (rules.type (pos.skip (charItems (rules.tail pos)).2)).isInner = false := by
  obtain ⟨previous, shape⟩ := tail_shaped fine pos
  change (headType (rules.tail _)).isInner = false
  rw [tail_skip]
  exact charItems_behind _ shape

theorem alternate_outer (fine : rules.Shaped) {rule : Nat}
    (member : start ∈ alternates (rules.getD rule [])) :
    (rules.type ⟨rule, start⟩).isInner = false := by
  change (headType ((rules.getD rule []).drop start)).isInner = false
  rcases getD_shaped fine rule with defined | none
  · exact shaped_head (alternates_shaped defined member) rfl
  · rw [none, drop_nil]
    rfl

theorem push_proper (proper : rules.Proper stack) {pos : GrammarPos}
    (outer : (rules.type pos).isInner = false) : rules.Proper (rules.push pos stack) := by
  unfold push
  split
  · exact proper
  · rename_i going
    exact forall_mem_cons.mpr ⟨⟨by simpa using going, outer⟩, proper⟩

/-- The expansion of a stack over the rules never meets the middle of an element. -/
theorem expandStack_proper (fine : rules.Shaped) (proper : rules.Proper stack) :
    ∃ more, rules.expandStack stack = .ok more ∧ ∀ next ∈ more, rules.Proper next := by
  cases stack with
  | nil => exact ⟨[], rfl, nofun⟩
  | cons pos base =>
    obtain ⟨⟨going, outer⟩, below⟩ := forall_mem_cons.mp proper
    rw [expandStack]
    cases type : rules.type pos <;> rw [type] at going outer
    case ruleRef =>
      refine ⟨_, rfl, ?_⟩
      intro next member
      obtain ⟨start, listed, rfl⟩ := mem_map.mp member
      have behind : (rules.type (pos.skip 1)).isInner = false := by
        apply skip_outer fine
        rw [type]
        rfl
      exact push_proper (push_proper below behind) (alternate_outer fine listed)
    case endRule | alt => cases going
    case charRngUpper | charAlt => cases outer
    all_goals exact ⟨[], rfl, nofun⟩

theorem reaches_proper (fine : rules.Shaped) (proper : rules.Proper stack)
    (path : Worklist.Reaches rules.expandStack stack other) : rules.Proper other := by
  induction path with
  | refl => exact proper
  | tail _ edge ih =>
    obtain ⟨more, expanded, proper⟩ := expandStack_proper fine ih
    exact proper _ ((Worklist.edge_iff expanded _).mp edge)

theorem mem_addStack {stackSet : List GrammarStack} :
    other ∈ rules.addStack stackSet stack ↔
      other ∈ stackSet ∨ other = stack ∧ rules.settled stack = true := by
  unfold addStack
  cases settled : rules.settled stack with
  | false => simp
  | true =>
    by_cases old : stack ∈ stackSet
    · rw [if_neg (by simpa using old)]
      grind
    · rw [if_pos (by simpa using old), mem_append, mem_singleton, and_iff_left rfl]

theorem mem_addStacks (visited stackSet : List GrammarStack) (other : GrammarStack) :
    other ∈ visited.foldl rules.addStack stackSet ↔
      other ∈ stackSet ∨ other ∈ visited ∧ rules.settled other = true := by
  induction visited generalizing stackSet with
  | nil => simp
  | cons stack visited ih =>
    rw [foldl_cons, ih, mem_addStack, mem_cons]
    grind

/-- The stacks that a stack expands to are added to those found before. -/
theorem advanceStack_add {found : List GrammarStack}
    (advanced : rules.advanceStack stack [] = .ok found) (newStacks : List GrammarStack) :
    ∃ result, rules.advanceStack stack newStacks = .ok result ∧
      ∀ other, other ∈ result ↔ other ∈ newStacks ∨ other ∈ found := by
  unfold advanceStack at advanced ⊢
  have search := fun acc => @Worklist.run_emit _ (List GrammarStack) _ rules.expandStack _
    rules.addStack (rules.expandFuel stack) [stack] [] [] acc
  simp only [foldl_nil] at search
  rw [search] at advanced
  rw [search newStacks]
  generalize Worklist.run rules.expandStack (fun found item => found ++ [item])
    (rules.expandFuel stack) [stack] [] [] = ended at advanced ⊢
  rcases ended with _ | error | visited
  · cases advanced
  · cases advanced
  cases advanced
  refine ⟨_, rfl, ?_⟩
  intro other
  rw [mem_addStacks, mem_addStacks]
  simp

/-- The expansion of a stack gives the settled ones that it reaches. -/
theorem mem_advanceStack {found : List GrammarStack}
    (advanced : rules.advanceStack stack [] = .ok found) (other : GrammarStack) :
    other ∈ found ↔
      Worklist.Reaches rules.expandStack stack other ∧ rules.settled other = true := by
  unfold advanceStack at advanced
  split at advanced
  · rename_i ended
    cases advanced
    obtain ⟨visited, rfl, reached⟩ := Worklist.run_reaches ended
    rw [mem_addStacks, reached]
    simp
  · cases advanced
  · cases advanced

theorem expandStack_settled (settled : rules.settled stack = true) :
    rules.expandStack stack = .ok [] := by
  cases stack with
  | nil => rfl
  | cons pos base =>
    rw [GrammarRules.settled] at settled
    rw [expandStack]
    cases type : rules.type pos <;> rw [type] at settled <;> first | rfl | cases settled

theorem reaches_settled (settled : rules.settled stack = true)
    (path : Worklist.Reaches rules.expandStack stack other) : other = stack := by
  rcases path.cases_head with same | ⟨next, edge, _⟩
  · exact same.symm
  · rw [Worklist.edge_iff (expandStack_settled settled)] at edge
    cases edge

/-- What holds of every element of the rules holds of every position. -/
theorem element_of_all {holds : GrammarElement → Prop}
    (all : ∀ rule ∈ rules, ∀ element ∈ rule, holds element) (ends : holds ⟨.endRule, 0⟩)
    (pos : GrammarPos) : holds (rules.element pos) := by
  unfold element tail
  cases elements : (rules.getD pos.rule []).drop pos.index with
  | nil => exact ends
  | cons element rest =>
    have inside : element ∈ rules.getD pos.rule [] :=
      mem_of_mem_drop (by rw [elements]; exact mem_cons_self)
    rw [getD_eq_getElem?_getD] at inside
    cases found : rules[pos.rule]? with
    | none =>
      rw [found] at inside
      cases inside
    | some rule =>
      rw [found] at inside
      exact all rule (mem_of_getElem? found) element inside

theorem type_of_all {holds : GreType → Prop}
    (all : ∀ rule ∈ rules, ∀ element ∈ rule, holds element.type) (ends : holds .endRule)
    (pos : GrammarPos) : holds (rules.type pos) :=
  @element_of_all rules (fun element => holds element.type) all ends pos

end GrammarRules

end Iian
