import Mathlib.Data.List.Basic

/- Context-free grammars whose terminals are classes of letters: derivations that always
replace the leftmost symbol, and the language they generate. -/
namespace Iian.Lib.Derivation

open List

inductive Symbol (N C : Type)
  | call (rule : N)
  | read (letters : C)
deriving DecidableEq, Repr

variable {N C T : Type} (bodies : N → List (List (Symbol N C))) (hits : C → T → Prop)

/-- A leftmost derivation from `form` to a word followed by `rest`. -/
inductive Derives : List (Symbol N C) → List T → List (Symbol N C) → Prop
  | done (form : List (Symbol N C)) : Derives form [] form
  | call {rule : N} {body form rest : List (Symbol N C)} {word : List T} (listed : body ∈ bodies rule)
      (later : Derives (body ++ form) word rest) : Derives (.call rule :: form) word rest
  | read {letters : C} {letter : T} {form rest : List (Symbol N C)} {word : List T}
      (hit : hits letters letter) (later : Derives form word rest) :
      Derives (.read letters :: form) (letter :: word) rest

/-- The words of a sequence of symbols, by their parse trees. -/
inductive Spells : List (Symbol N C) → List T → Prop
  | nil : Spells [] []
  | call {rule : N} {body form : List (Symbol N C)} {front back : List T} (listed : body ∈ bodies rule)
      (inside : Spells body front) (behind : Spells form back) :
      Spells (.call rule :: form) (front ++ back)
  | read {letters : C} {letter : T} {form : List (Symbol N C)} {word : List T}
      (hit : hits letters letter) (behind : Spells form word) :
      Spells (.read letters :: form) (letter :: word)

variable {bodies hits} {word : List T}

theorem Spells.split {first second : List (Symbol N C)}
    (spells : Spells bodies hits (first ++ second) word) :
    ∃ front back, word = front ++ back ∧ Spells bodies hits first front ∧
      Spells bodies hits second back := by
  generalize whole : first ++ second = form at spells
  induction spells generalizing first with
  | nil =>
    obtain ⟨rfl, rfl⟩ := append_eq_nil_iff.mp whole
    exact ⟨[], [], rfl, .nil, .nil⟩
  | @call rule body form front back listed inside behind _ ih =>
    cases first with
    | nil =>
      rw [nil_append] at whole
      rw [whole]
      exact ⟨[], front ++ back, rfl, .nil, .call listed inside behind⟩
    | cons symbol first =>
      injection whole with same whole
      obtain ⟨middle, last, rfl, left, right⟩ := ih whole
      rw [same]
      exact ⟨front ++ middle, last, (append_assoc _ _ _).symm, .call listed inside left, right⟩
  | @read letters letter form word hit behind ih =>
    cases first with
    | nil =>
      rw [nil_append] at whole
      rw [whole]
      exact ⟨[], letter :: word, rfl, .nil, .read hit behind⟩
    | cons symbol first =>
      injection whole with same whole
      obtain ⟨middle, last, rfl, left, right⟩ := ih whole
      rw [same]
      exact ⟨letter :: middle, last, rfl, .read hit left, right⟩

theorem Derives.append {first second rest : List (Symbol N C)} {front back : List T}
    (left : Derives bodies hits first front []) (right : Derives bodies hits second back rest) :
    Derives bodies hits (first ++ second) (front ++ back) rest := by
  generalize ended : ([] : List (Symbol N C)) = last at left
  induction left with
  | done form =>
    rw [← ended]
    exact right
  | call listed _ ih =>
    rw [cons_append]
    refine .call listed ?_
    rw [← append_assoc]
    exact ih ended
  | read hit _ ih => exact .read hit (ih ended)

/-- A word belongs to the language if and only if a leftmost derivation ends with it. -/
theorem derives_nil_iff {form : List (Symbol N C)} :
    Derives bodies hits form word [] ↔ Spells bodies hits form word := by
  constructor
  · intro derives
    generalize ended : ([] : List (Symbol N C)) = last at derives
    induction derives with
    | done form =>
      rw [← ended]
      exact .nil
    | call listed _ ih =>
      obtain ⟨front, back, rfl, inside, behind⟩ := (ih ended).split
      exact .call listed inside behind
    | read hit _ ih => exact .read hit (ih ended)
  · intro spells
    induction spells with
    | nil => exact .done []
    | call listed _ _ inside behind => exact .call listed (inside.append behind)
    | read hit _ behind => exact .read hit behind

end Iian.Lib.Derivation
