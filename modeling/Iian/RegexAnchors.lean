import Iian.Sampling

/- The anchors of a regular expression: `regex_to_grammar` completes them, and `_pattern_to_rule`
cuts them off before it reads the pattern. -/
namespace Iian

open List

/-- `unsupported_pattern` and `invalid_pattern`. -/
inductive PatternError
  | unsupported (what : Bytes)
  | invalid (what : Bytes)
deriving DecidableEq, Repr

/-- `_pattern_to_rule`, with the conversion of the pattern between the anchors. -/
def patternToRule {Rules : Type} (transform : Bytes → Except PatternError Rules) (pattern : Bytes) :
    Except PatternError Rules :=
  if pattern.length < 2 ∨ pattern.head? ≠ some 0x5E ∨ pattern.getLast? ≠ some 0x24 then
    .error (.unsupported (ascii "not anchored with '^' and '$'"))
  else transform (pattern.drop 1).dropLast

/-- `set_root_regex`. An exception is its message. -/
def setRootRegex {Rules : Type} (transform : Bytes → Except PatternError Rules) (regex : Bytes) :
    Except Bytes Rules :=
  match patternToRule transform regex with
  | .ok rules => .ok rules
  | .error (.unsupported what) =>
    .error (ascii "regex '" ++ regex ++ ascii "' is not supported: " ++ what)
  | .error (.invalid what) => .error (ascii "invalid regex '" ++ regex ++ ascii "': " ++ what)

/-- The pattern that `regex_to_grammar` passes to the converter. -/
def anchorRegex (regex : Bytes) : Bytes :=
  let anchored := if regex.head? = some 0x5E then regex else 0x5E :: regex
  let trailingBackslashes := (anchored.reverse.takeWhile (· = 0x5C)).length
  let endsAnchored := 2 ≤ anchored.length ∧ anchored.getLast? = some 0x24 ∧
    (anchored.length < 3 ∨ anchored[anchored.length - 2]? ≠ some 0x5C ∨ trailingBackslashes % 2 = 0)
  if endsAnchored then anchored else anchored ++ [0x24]

def regexToGrammar {Rules : Type} (transform : Bytes → Except PatternError Rules) (regex : Bytes) :
    Except Bytes Rules :=
  setRootRegex transform (anchorRegex regex)

def trailingBackslashes (text : Bytes) : Nat := (text.reverse.takeWhile (· = 0x5C)).length

/-- A dollar sign at the end, with an odd number of backslashes in front of it. -/
def EndsEscaped (regex : Bytes) : Prop :=
  regex.getLast? = some 0x24 ∧ trailingBackslashes regex.dropLast % 2 = 1

/-- A dollar sign at the end that is an anchor. -/
def EndsAnchored (regex : Bytes) : Prop :=
  regex.getLast? = some 0x24 ∧ trailingBackslashes regex.dropLast % 2 = 0

instance (regex : Bytes) : Decidable (EndsAnchored regex) :=
  inferInstanceAs (Decidable (_ ∧ _))

/-- The regular expression with the anchors that it lacks. -/
def completeAnchors (regex : Bytes) : Bytes :=
  (if regex.head? = some 0x5E then regex else 0x5E :: regex) ++
    if EndsAnchored regex then [] else [0x24]

/-- The loop over the backslashes starts at a dollar sign, if there is one, and ends there. -/
theorem anchorRegex_eq (regex : Bytes) : anchorRegex regex =
    (if regex.head? = some 0x5E then regex else 0x5E :: regex) ++
      if regex.getLast? = some 0x24 then [] else [0x24] := by
  have last : ∀ anchored, anchored = (if regex.head? = some 0x5E then regex else 0x5E :: regex) →
      (anchored.getLast? = some 0x24 ↔ regex.getLast? = some 0x24) := by
    rintro _ rfl
    split
    · rfl
    · cases regex with
      | nil => decide
      | cons byte rest => rw [getLast?_cons_cons]
  unfold anchorRegex
  dsimp only
  have same := last _ rfl
  generalize shape : (if regex.head? = some 0x5E then regex else 0x5E :: regex) = anchored at same ⊢
  by_cases ends : regex.getLast? = some 0x24
  · obtain ⟨front, rfl⟩ := getLast?_eq_some_iff.mp (same.mpr ends)
    have long : 2 ≤ (front ++ [0x24]).length := by
      cases front with
      | nil =>
        exfalso
        split at shape
        · rename_i starts
          rw [shape] at starts
          exact absurd starts (by decide)
        · exact absurd (cons.inj shape).1 (by decide)
      | cons => simp
    have none : ((front ++ [0x24]).reverse.takeWhile (fun byte : UInt8 => byte = 0x5C)).length = 0 := by
      rw [reverse_append]
      rfl
    rw [if_pos ends, append_nil, if_pos]
    refine ⟨long, same.mpr ends, .inr (.inr ?_)⟩
    rw [none]
  · rw [if_neg ends, if_neg]
    exact fun both => ends (same.mp both.2.1)

/-- The anchors are completed unless the regular expression ends in an escaped dollar sign. -/
theorem anchorRegex_complete_iff (regex : Bytes) :
    anchorRegex regex = completeAnchors regex ↔ ¬EndsEscaped regex := by
  rw [anchorRegex_eq, completeAnchors, append_cancel_left_eq]
  by_cases ends : regex.getLast? = some 0x24
  · rw [if_pos ends]
    by_cases even : trailingBackslashes regex.dropLast % 2 = 0
    · rw [if_pos ⟨ends, even⟩]
      refine iff_of_true rfl fun escaped => ?_
      exact absurd (even.symm.trans escaped.2) (by decide)
    · rw [if_neg fun anchored => even anchored.2]
      refine iff_of_false (by simp) fun other => other ⟨ends, ?_⟩
      exact Nat.mod_two_ne_zero.mp even
  · rw [if_neg ends, if_neg fun anchored => ends anchored.1]
    exact iff_of_true rfl fun escaped => ends escaped.1

/-- `a\$` is passed on as `^a\$`, of which the converter reads `a\`. -/
theorem anchorRegex_escaped_dollar :
    anchorRegex (ascii "a\\$") = ascii "^a\\$" ∧ completeAnchors (ascii "a\\$") = ascii "^a\\$$" ∧
      regexToGrammar .ok (ascii "a\\$") = .ok (ascii "a\\") := by
  decide

end Iian
