import Iian.GrammarRecursion

/- What the check for left recursion reports is left recursion, and rules without it expand
every stack. -/
namespace Iian

open List Lib

variable {element : GrammarElement} {rest elements : List GrammarElement} {rule : Nat}

namespace GrammarRules

variable {rules : GrammarRules} {previous : GreType} {pos : GrammarPos} {recurse : Bool}
    {index : Nat}

/-- The rule derives the empty string. -/
def Nullable (rules : GrammarRules) (rule : Nat) : Prop :=
  ∃ start ∈ rules.machine.starts rule, rules.machine.Vanishes start

theorem end_or_alt {type : GreType} (ends : type.isEndOfSequence = true) :
    type = .endRule ∨ type = .alt := by
  revert ends
  cases type <;> decide

/-- Nothing stands behind the end of a rule. -/
theorem shaped_end (fine : shaped .endRule (element :: rest) = true) : False := by
  obtain ⟨follow, _⟩ := shaped_cons.mp fine
  cases type : element.type <;> rw [type] at follow <;> cases follow

theorem laterAlternates_mem (fine : shaped previous elements = true) {count : Nat}
    (found : elements[count]? = some element) (alt : element.type = .alt) (index : Nat) :
    index + count + 1 ∈ laterAlternates elements index := by
  induction elements generalizing previous count index with
  | nil => cases found
  | cons first rest ih =>
    have behind := (shaped_cons.mp fine).2
    cases count with
    | zero =>
      cases found
      rw [laterAlternates, alt]
      exact mem_cons_self
    | succ count =>
      rw [getElem?_cons_succ] at found
      have later := ih behind found (index + 1)
      rw [show index + 1 + count + 1 = index + (count + 1) + 1 by omega] at later
      rw [laterAlternates]
      split
      · exact mem_cons_of_mem _ later
      · rename_i ends
        rw [ends] at behind
        cases rest with
        | nil => cases found
        | cons second rest => exact (shaped_end behind).elim
      · exact later

/-- An empty alternate is found where it starts. -/
theorem emptyAlternate_starts (fine : shaped previous elements = true) {atStart : Bool}
    (empty : emptyAlternate atStart elements = true) (index : Nat) :
    (atStart = true ∧ (headType elements).isEndOfSequence = true) ∨
      ∃ count, index + count ∈ laterAlternates elements index ∧
        (headType (elements.drop count)).isEndOfSequence = true := by
  induction elements generalizing previous atStart index with
  | nil => cases empty
  | cons element rest ih =>
    have behind := (shaped_cons.mp fine).2
    have later : (∃ count, index + 1 + count ∈ laterAlternates rest (index + 1) ∧
        (headType (rest.drop count)).isEndOfSequence = true) → element.type ≠ .endRule →
        ∃ count, index + count ∈ laterAlternates (element :: rest) index ∧
          (headType ((element :: rest).drop count)).isEndOfSequence = true := by
      rintro ⟨count, member, ends⟩ going
      refine ⟨count + 1, ?_, ends⟩
      rw [show index + (count + 1) = index + 1 + count by omega, laterAlternates]
      split
      · exact mem_cons_of_mem _ member
      · rename_i last
        exact (going last).elim
      · exact member
    rw [emptyAlternate] at empty
    split at empty
    · rename_i ends
      rcases Bool.or_eq_true_iff.mp empty with starts | empty
      · exact .inl ⟨starts, ends⟩
      have going : element.type ≠ .endRule := by
        intro last
        rw [last] at behind
        cases rest with
        | nil => cases empty
        | cons second rest => exact shaped_end behind
      have alt := (end_or_alt ends).resolve_left going
      rcases ih behind empty (index + 1) with ⟨_, next⟩ | found
      · refine .inr ⟨1, ?_, next⟩
        rw [laterAlternates, alt]
        exact mem_cons_self
      · exact .inr (later found going)
    · rename_i going
      rcases ih behind empty (index + 1) with ⟨starts, _⟩ | found
      · cases starts
      refine .inr (later found ?_)
      intro last
      rw [last] at going
      exact going rfl

theorem nullable_of_emptyAlternate (fine : rules.Shaped)
    (empty : emptyAlternate true (rules.getD rule []) = true) : rules.Nullable rule := by
  have shape : shaped .alt (rules.getD rule []) = true := by
    rcases getD_shaped fine rule with shape | none
    · exact shape
    · rw [none] at empty
      cases empty
  have found : ∃ start ∈ alternates (rules.getD rule []),
      (rules.type ⟨rule, start⟩).isEndOfSequence = true := by
    rcases emptyAlternate_starts shape empty 0 with ⟨_, ends⟩ | ⟨start, member, ends⟩
    · exact ⟨0, mem_cons_self, ends⟩
    · rw [Nat.zero_add] at member
      exact ⟨start, mem_cons_of_mem _ member, ends⟩
  obtain ⟨start, member, ends⟩ := found
  refine ⟨none, mem_map.mpr ⟨start, member, if_pos ends⟩, .nil⟩

/-- The turn of the check for an element of a rule; `inner` is the check of another rule. -/
def scanElement (inner : Nat → RecursionMarks → Bool × RecursionMarks)
    (state : Bool × Bool × RecursionMarks) (element : GrammarElement) :
    Bool × Bool × RecursionMarks :=
  let (detected, recurse, marks) := state
  if detected then (true, recurse, marks)
  else if element.type = .ruleRef ∧ recurse then
    let (detected, marks) := inner element.value marks
    (detected, marks.mayBeEmpty.contains element.value, marks)
  else (false, element.type.isEndOfSequence, marks)

/-- The marks while the rules of `path` are in progress. -/
structure Marked (rules : GrammarRules) (path : List Nat) (marks : RecursionMarks) : Prop where
  path : marks.inProgress = path
  empties : ∀ rule ∈ marks.mayBeEmpty, rules.Nullable rule

/-- The check of a rule finds nothing when the rules in progress lead to it. -/
def Passes (rules : GrammarRules) (path : List Nat)
    (inner : Nat → RecursionMarks → Bool × RecursionMarks) : Prop :=
  ∀ rule < rules.length, (∀ caller ∈ path, Relation.TransGen rules.machine.Corner caller rule) →
    ∀ marks, rules.Marked path marks →
      ∃ next, inner rule marks = (false, next) ∧ rules.Marked path next

theorem sequence_going (going : (rules.type pos).isEndOfSequence = false) :
    rules.sequence pos = some pos := by
  rw [sequence, going]
  rfl

theorem element_eq (shape : rules.tail pos = element :: rest) :
    rules.element pos = element := by
  rw [GrammarRules.element, shape, headD_cons]

/-- Behind the end of an alternate the next one opens the rule. -/
theorem opens_behind_end (fine : rules.Shaped) (shape : rules.tail ⟨rule, index⟩ = element :: rest)
    (ends : element.type.isEndOfSequence = true)
    (going : (rules.type ⟨rule, index + 1⟩).isEndOfSequence = false) :
    rules.machine.Opens rule ⟨rule, index + 1⟩ := by
  have behind : rules.tail ⟨rule, index + 1⟩ = rest := by
    have skipped := @tail_skip rules ⟨rule, index⟩ 1
    rw [shape] at skipped
    exact skipped
  have whole : shaped .alt (rules.getD rule []) = true := by
    rcases getD_shaped fine rule with whole | none
    · exact whole
    · rw [tail, none, drop_nil] at shape
      cases shape
  rcases end_or_alt ends with last | alt
  · obtain ⟨previous, fine⟩ := shaped_drop whole index
    rw [tail] at shape
    rw [shape, shaped_cons, last] at fine
    cases rest with
    | nil => exact (tail_ne_nil going behind).elim
    | cons second rest => exact (shaped_end fine.2).elim
  · have found : (rules.getD rule [])[index]? = some element := by
      rw [← head?_drop]
      rw [tail] at shape
      rw [shape]
      rfl
    have member := laterAlternates_mem whole found alt 0
    rw [Nat.zero_add] at member
    exact .start (mem_map.mpr ⟨index + 1, mem_cons_of_mem _ member, sequence_going going⟩)

/-- The scan of a rule goes on at positions that open the rule. -/
theorem scan_passes (fine : rules.Shaped) (defined : rules.Defined) {path : List Nat}
    (lead : ∀ caller ∈ path, Relation.ReflTransGen rules.machine.Corner caller rule)
    {inner : Nat → RecursionMarks → Bool × RecursionMarks} (passes : rules.Passes path inner)
    (elements : List GrammarElement) (shape : rules.tail ⟨rule, index⟩ = elements)
    (opens : recurse = true →
      (rules.type ⟨rule, index⟩).isEndOfSequence = false → rules.machine.Opens rule ⟨rule, index⟩)
    {marks : RecursionMarks} (marked : rules.Marked path marks) :
    ∃ last next, elements.foldl (scanElement inner) (false, recurse, marks) = (false, last, next) ∧
      rules.Marked path next := by
  induction elements generalizing index recurse marks with
  | nil => exact ⟨recurse, marks, rfl, marked⟩
  | cons element rest ih =>
    have here := element_eq shape
    have behind : rules.tail ⟨rule, index + 1⟩ = rest := by
      have skipped := @tail_skip rules ⟨rule, index⟩ 1
      rw [shape] at skipped
      exact skipped
    rw [foldl_cons, scanElement]
    dsimp only
    rw [if_neg (by decide)]
    split
    · rename_i recursive
      obtain ⟨reference, on⟩ := recursive
      have type : rules.type ⟨rule, index⟩ = .ruleRef := by rw [GrammarRules.type, here, reference]
      have open' := opens on (by rw [type]; rfl)
      have called : rules.machine.calls ⟨rule, index⟩ = some element.value := by
        rw [← here]
        exact if_pos type
      obtain ⟨next, checked, kept⟩ := passes element.value
        (Finset.mem_range.mp (defined.calls _ _ called))
        (fun caller member => .tail' (lead caller member) ⟨_, open', called⟩) marks marked
      rw [checked]
      refine ih behind ?_ kept
      intro empty going
      obtain ⟨start, listed, gone⟩ := kept.empties _ (by simpa using empty)
      exact .next open' called listed gone (sequence_going going)
    · exact ih behind (opens_behind_end fine shape) marked

/-- The marks with which the scan of a rule begins. -/
def enter (rules : GrammarRules) (rule : Nat) (marks : RecursionMarks) : RecursionMarks :=
  { marks with
    inProgress := rule :: marks.inProgress
    mayBeEmpty := if emptyAlternate true (rules.getD rule []) then rule :: marks.mayBeEmpty
      else marks.mayBeEmpty }

theorem detectLeftRecursion_scan {depth : Nat} {marks last : RecursionMarks}
    (new : marks.inProgress.contains rule = false)
    (scanned : (rules.getD rule []).foldl (scanElement (rules.detectLeftRecursion depth))
      (false, true, rules.enter rule marks) = (false, recurse, last)) :
    rules.detectLeftRecursion (depth + 1) rule marks = (false, { last with
      visited := rule :: last.visited
      inProgress := last.inProgress.erase rule }) := by
  have unfolded : rules.detectLeftRecursion (depth + 1) rule marks =
      if marks.inProgress.contains rule then (true, marks)
      else
        let scanned := (rules.getD rule []).foldl (scanElement (rules.detectLeftRecursion depth))
          (false, true, rules.enter rule marks)
        if scanned.1 then (true, scanned.2.2)
        else (false, { scanned.2.2 with
          visited := rule :: scanned.2.2.visited
          inProgress := scanned.2.2.inProgress.erase rule }) := by
    rw [detectLeftRecursion]
    rfl
  rw [unfolded, new, if_neg (by decide), scanned]
  rfl

section

variable (fine : rules.Shaped) (defined : rules.Defined) (direct : ¬rules.machine.LeftRecursive)
include fine defined direct

theorem detectLeftRecursion_passes (depth : Nat) {path : List Nat} (distinct : path.Nodup)
    (known : ∀ caller ∈ path, caller < rules.length) (deep : path.length + depth = rules.length + 1) :
    rules.Passes path (rules.detectLeftRecursion depth) := by
  induction depth generalizing path with
  | zero =>
    have few : path.length ≤ rules.length := by
      rw [← toFinset_card_of_nodup distinct, ← Finset.card_range rules.length]
      apply Finset.card_le_card
      exact fun caller member => Finset.mem_range.mpr (known caller (mem_toFinset.mp member))
    omega
  | succ depth ih =>
    intro rule inside lead marks marked
    have new : rule ∉ path := fun member => direct ⟨rule, lead rule member⟩
    have entered : rules.Marked (rule :: path) (rules.enter rule marks) := by
      refine ⟨congrArg (List.cons rule) marked.path, ?_⟩
      intro other member
      dsimp only [enter] at member
      split at member
      · rename_i empty
        rcases mem_cons.mp member with rfl | member
        · exact nullable_of_emptyAlternate fine empty
        · exact marked.empties other member
      · exact marked.empties other member
    have first : true = true → (rules.type ⟨rule, 0⟩).isEndOfSequence = false →
        rules.machine.Opens rule ⟨rule, 0⟩ := fun _ going =>
      .start (mem_map.mpr ⟨0, mem_cons_self, sequence_going going⟩)
    have inner := ih (nodup_cons.mpr ⟨new, distinct⟩)
      (forall_mem_cons.mpr ⟨inside, known⟩) (by rw [length_cons]; omega)
    obtain ⟨recurse, last, scanned, kept⟩ := scan_passes fine defined
      (forall_mem_cons.mpr ⟨.refl, fun caller member => (lead caller member).to_reflTransGen⟩)
      inner (rules.getD rule []) rfl first entered
    refine ⟨_, detectLeftRecursion_scan ?_ scanned, ?_, kept.empties⟩
    · rw [marked.path]
      simpa using new
    · dsimp only
      rw [kept.path, erase_cons_head]

/-- The check finds nothing in rules without left recursion. -/
theorem leftRecursive_of_direct : rules.leftRecursive = false := by
  have passes := detectLeftRecursion_passes fine defined direct (rules.length + 1) nodup_nil
    (forall_mem_nil _) (Nat.zero_add _)
  have all : ∀ found ⊆ List.range rules.length, ∀ marks, rules.Marked [] marks →
      (found.foldl (fun (detected, marks) ruleIndex =>
        if detected ∨ marks.visited.contains ruleIndex then (detected, marks)
        else rules.detectLeftRecursion (rules.length + 1) ruleIndex marks) (false, marks)).1 =
        false := by
    intro found
    induction found with
    | nil => exact fun _ _ _ => rfl
    | cons rule found ih =>
      intro inside marks marked
      obtain ⟨here, later⟩ := cons_subset.mp inside
      rw [foldl_cons]
      dsimp only
      split
      · exact ih later marks marked
      · obtain ⟨next, checked, kept⟩ := passes rule (mem_range.mp here) nofun marks marked
        rw [checked]
        exact ih later next kept
  exact all _ (List.Subset.refl _) {} ⟨rfl, nofun⟩

/-- Rules without left recursion expand every stack. -/
theorem expands_of_direct : rules.Expands := by
  intro stack proper
  obtain ⟨found, advanced⟩ := unfolds_of_bounded fine defined
    (fun forEver => direct forEver.leftRecursive) stack proper
  obtain ⟨last, path, settled⟩ := Pushdown.Machine.reach_settled direct _ defined.calls
    (fun rule => by simp [machine, alternates]) stack
  have fixed : rules.settled last = true := by
    cases last with
    | nil => rfl
    | cons pos base =>
      have proper := reaches_proper fine proper (reaches_iff.mpr path)
      obtain ⟨going, outer⟩ := proper pos mem_cons_self
      have terminal := settled pos rfl
      dsimp only [machine] at terminal
      rw [GrammarRules.settled]
      revert going outer terminal
      cases rules.type pos <;> simp [GreType.isEndOfSequence, GreType.isInner, GreType.isChar,
        GreType.isToken, GreType.isPositiveChar]
  exact ⟨found, advanced,
    ne_nil_of_mem ((mem_advanceStack advanced last).mpr ⟨reaches_iff.mpr path, fixed⟩)⟩

end

end GrammarRules

end Iian
