import Iian.GrammarLanguage

/- A token that the filter approves can be consumed.

The filter asks an element for whole tokens about a token whose text has been taken in part;
the consumption of the token drops such a stack. -/
namespace Iian

open Lib

namespace GrammarRules

variable {rules : GrammarRules}

theorem Consumes.ready (fine : rules.Shaped) (unfolds : rules.Unfolds) {stack next : GrammarStack}
    (ready : rules.Ready stack) {chr : Nat} (consumes : rules.Consumes chr stack next) :
    rules.Ready next := by
  obtain ⟨pos, base, rfl, _, _, after⟩ := consumes
  obtain ⟨path, settled⟩ := (mem_stacksAfter unfolds fine ready next).mp after
  exact ⟨reaches_proper fine (ready.behind fine) (reaches_iff.mpr path), settled⟩

/-- A stack is clear of matching token elements when no part of the text leads to one. -/
theorem clear_of_eats (fine : rules.Shaped) (unfolds : rules.Unfolds) (token : Token)
    (codePoints : List Nat) {stack : GrammarStack} (ready : rules.Ready stack)
    (apart : ∀ front back pos base, codePoints = front ++ back → back ≠ [] →
      rules.Eats stack front (pos :: base) → (rules.type pos).isToken = true →
        rules.matchToken pos token = false) : rules.Clear token codePoints stack := by
  induction codePoints generalizing stack with
  | nil => exact trivial
  | cons chr codePoints ih =>
    refine ⟨?_, ?_⟩
    · intro pos here whole
      obtain ⟨base, rfl⟩ := List.head?_eq_some_iff.mp here
      exact apart [] (chr :: codePoints) pos base rfl (List.cons_ne_nil _ _) (.done .refl) whole
    · intro next consumes
      apply ih (consumes.ready fine unfolds ready)
      intro front back pos base shape more eats whole
      have settled : rules.settled (pos :: base) = true := by
        rw [GrammarRules.settled, whole, Bool.or_true]
      exact apart (chr :: front) back pos base (by rw [shape, List.cons_append]) more
        ((eats_cons_iff unfolds fine ready settled chr front).mpr ⟨next, consumes, eats⟩) whole

end GrammarRules

namespace Grammar

variable {ruleSet : RuleSet} {isEog : Token → Bool} {piece : Token → Bytes} {grammar : Grammar}

/-- The code points of a token's text. -/
def text (grammar : Grammar) (piece : Token → Bytes) (token : Token) : List Nat :=
  (grammar.decode piece token).1.dropLast

/-- A part of the text leads to an element that matches the token as a whole. -/
def MeetsToken (grammar : Grammar) (piece : Token → Bytes) (token : Token) : Prop :=
  ∃ stack ∈ grammar.stackSet, ∃ front back pos base,
    grammar.text piece token = front ++ back ∧ front ≠ [] ∧ back ≠ [] ∧
      grammar.rules.Eats stack front (pos :: base) ∧ (grammar.rules.type pos).isToken = true ∧
        grammar.rules.matchToken pos token = true

/-- What the text of a token must be like: it has no zero code point, and meets no element that
matches the token as a whole. -/
structure Consumable (grammar : Grammar) (piece : Token → Bytes) (token : Token) : Prop where
  nonzero : 0 ∉ grammar.text piece token
  apart : ¬grammar.MeetsToken piece token

/-- In every state of a grammar without left recursion, a token that is approved is consumed
and leaves a stack. -/
theorem accept_of_wouldAccept (reached : Reached ruleSet isEog piece grammar)
    (direct : ¬ruleSet.rules.machine.LeftRecursive) {token : Token}
    (consumable : isEog token = false → grammar.Consumable piece token)
    (approved : grammar.wouldAccept isEog piece token = .ok true) :
    ∃ next, grammar.accept isEog piece token = .ok next ∧ next.stackSet ≠ [] := by
  have sound := reached.sound
  have expands : grammar.rules.Expands := by
    rw [reached.rules]
    exact GrammarRules.expands_of_direct ruleSet.shaped ruleSet.defined direct
  refine accept_returns sound expands (fun text => (consumable text).nonzero) ?_
    (wouldAccept_ok approved).symm
  intro text stack member nonterminal
  apply GrammarRules.clear_of_eats sound.shaped expands.unfolds token _ (sound.ready stack member)
  intro front back pos base shape more eats whole
  by_contra matching
  rw [Bool.not_eq_false] at matching
  have some : front ≠ [] := by
    rintro rfl
    cases eats with
    | done path =>
      have same := GrammarRules.reaches_settled (sound.ready stack member).settled
        (GrammarRules.reaches_iff.mpr path)
      rw [nonterminal pos (by rw [← same]; rfl)] at whole
      cases whole
  exact (consumable text).apart
    ⟨stack, member, front, back, pos, base, shape, some, more, eats, whole, matching⟩

end Grammar

/-- `root ::= "a" <[5]>`. -/
def mixedRules : RuleSet where
  rules := [[⟨.char, 97⟩, ⟨.token, 5⟩, ⟨.endRule, 0⟩]]
  start := 0
  shaped := by decide
  defined := by decide
  start_lt := by decide

/-- Token 5 has the text `ab` and every other token the text `a`. -/
def mixedPiece (token : Token) : Bytes := if token = 5 then [97, 98] else [97]

/-- The grammar in front of an element, with the last character read. -/
def mixedGrammar (index value : Nat) : Grammar where
  rules := mixedRules.rules
  stackSet := [[⟨0, index⟩]]
  partialUtf8 := ⟨value, 0⟩

theorem mixedRules_direct : ¬mixedRules.rules.machine.LeftRecursive := by
  rintro ⟨rule, cycle⟩
  obtain ⟨callee, ⟨pos, _, called⟩, _⟩ := Relation.TransGen.head'_iff.mp cycle
  have flat := @GrammarRules.type_of_all mixedRules.rules (fun type => type ≠ .ruleRef)
    (by decide) nofun pos
  exact flat (GrammarRules.calls_some called).1

theorem mixedGrammar_reached : Grammar.Reached mixedRules (fun _ => false) mixedPiece
    (mixedGrammar 1 97) := by
  have first : Grammar.Reached mixedRules (fun _ => false) mixedPiece (mixedGrammar 0 0) := .init rfl
  exact @Grammar.Reached.accept mixedRules _ _ _ _ 6 first rfl

/-- Behind the character the token is consumed as a whole. -/
theorem Grammar.accept_of_wouldAccept_mixed :
    ∃ next, (mixedGrammar 1 97).accept (fun _ => false) mixedPiece 5 = .ok next ∧ next.stackSet ≠ [] := by
  apply Grammar.accept_of_wouldAccept mixedGrammar_reached mixedRules_direct _ (by decide)
  intro _
  refine ⟨by decide, ?_⟩
  rintro ⟨stack, member, front, back, pos, base, _, some, _, eats, _⟩
  rw [List.mem_singleton.mp member] at eats
  cases eats with
  | done => exact some rfl
  | take path char =>
    have same := GrammarRules.reaches_settled (by decide) (GrammarRules.reaches_iff.mpr path)
    injection same with here
    rw [here] at char
    cases char

/-- In front of the character the filter approves a token whose text goes on behind it, because
the token element matches. The token is not consumed. -/
theorem Grammar.wouldAccept_not_accepted :
    Grammar.init mixedRules = .ok (mixedGrammar 0 0) ∧
      (mixedGrammar 0 0).wouldAccept (fun _ => false) mixedPiece 5 = .ok true ∧
      (mixedGrammar 0 0).accept (fun _ => false) mixedPiece 5 =
        .threw (Grammar.emptyStackMessage mixedPiece 5) := by
  refine ⟨rfl, by decide, rfl⟩

end Iian
