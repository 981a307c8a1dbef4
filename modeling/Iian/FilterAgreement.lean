import Iian.LeftRecursion

/- The two filters of the grammar engine agree. Masking a row sends all its tokens through the
stacks at once, and those that are rejected so far go on to the next stack; asking about a
token sends it through alone. A computation over many tokens comes back if and only if that of
each of them does, and it rejects the same ones. -/
namespace Iian

open List

variable {candidates : List GrammarCandidate}

namespace GrammarRules

/-- The filters can look behind the element on top of a stack. -/
def Opens (rules : GrammarRules) : GrammarStack → Prop
  | [] => True
  | pos :: base => (rules.type pos).isToken = true ∨ ((rules.type pos).isChar = true ∧
      ∃ found, rules.advanceStack (rules.push (pos.skip (charItems (rules.tail pos)).2) base) [] =
        .ok found ∧ found ≠ [])

/-- A code point is taken by the character element on top of a stack. -/
def Goes (rules : GrammarRules) (chr : Nat) : GrammarStack → Prop
  | [] => False
  | pos :: _ => (rules.type pos).isToken = false ∧ chr ≠ 0 ∧ rules.takes pos chr = true

/-- The stacks behind the element on top. -/
def behind (rules : GrammarRules) : GrammarStack → List GrammarStack
  | [] => []
  | pos :: base => rules.stacksAfter pos base

/-- The filter comes back for the code points of one token: it looks behind every stack, and goes
on behind those that take a code point when the stacks before them have refused the token. -/
def Comes (rules : GrammarRules) (id : Token) (utf8 : PartialUtf8) :
    List Nat → List GrammarStack → Prop
  | [], _ => True
  | chr :: codePoints, stackSet => ∀ front stack back, stackSet = front ++ stack :: back →
      rules.Opens stack ∧
        (front.all (rules.refuses id utf8 (chr :: codePoints)) = true → rules.Goes chr stack →
          Comes rules id utf8 codePoints (rules.behind stack))

variable {rules : GrammarRules}

/-- What the filter for one stack needs of a candidate. -/
def Passable (rules : GrammarRules) (stack : GrammarStack) (tok : GrammarCandidate) : Prop :=
  rules.Goes tok.codePoint stack →
    rules.Comes tok.id tok.partialUtf8 tok.forth.rest (rules.behind stack)

theorem comes_iff {tok : GrammarCandidate} (whole : tok.Whole) (stackSet : List GrammarStack) :
    rules.Comes tok.id tok.partialUtf8 tok.rest stackSet ↔
      ∀ front stack back, stackSet = front ++ stack :: back → rules.Opens stack ∧
        (front.all (rules.refuses tok.id tok.partialUtf8 tok.rest) = true →
          rules.Passable stack tok) := by
  rw [whole.rest_eq, Comes]
  rfl

theorem rejectCandidatesForStack_ok_iff {depth : Nat}
    {deeper : List GrammarStack → List GrammarCandidate → Outcome (List GrammarCandidate)}
    (below : ∀ stackSet candidates, Within depth candidates →
      ((∃ rejected, deeper stackSet candidates = .ok rejected) ↔ stackSet ≠ [] ∧
        ∀ tok ∈ candidates, rules.Comes tok.id tok.partialUtf8 tok.rest stackSet))
    (stack : GrammarStack) (within : Within (depth + 1) candidates) :
    (∃ rejected, rules.rejectCandidatesForStack deeper stack candidates = .ok rejected) ↔
      rules.Opens stack ∧ ∀ tok ∈ candidates, rules.Passable stack tok := by
  cases stack with
  | nil => exact iff_of_true ⟨_, rfl⟩ ⟨trivial, fun _ _ => False.elim⟩
  | cons pos base =>
    unfold rejectCandidatesForStack
    dsimp only
    by_cases terminal : (rules.type pos).isToken = true
    · rw [if_pos terminal]
      refine iff_of_true ⟨_, rfl⟩ ⟨.inl terminal, ?_⟩
      intro tok _ goes
      rw [goes.1] at terminal
      cases terminal
    · rw [if_neg terminal]
      have behind : ∀ found, rules.advanceStack
          (rules.push (pos.skip (charItems (rules.tail pos)).2) base) [] = .ok found →
          rules.behind (pos :: base) = found := by
        intro found advanced
        rw [GrammarRules.behind, stacksAfter, advanced]
      have passing : ∀ found, rules.behind (pos :: base) = found →
          ((∀ tok ∈ (candidates.filter (rules.passes pos)).map GrammarCandidate.forth,
              rules.Comes tok.id tok.partialUtf8 tok.rest found) ↔
            ∀ tok ∈ candidates, rules.Passable (pos :: base) tok) := by
        intro found same
        simp only [forall_mem_map, mem_filter, passes, Bool.and_eq_true,
          decide_eq_true_eq, Passable, Goes, same, and_imp]
        rw [Bool.not_eq_true] at terminal
        simp only [terminal, true_imp_iff]
        rfl
      constructor
      · rintro ⟨rejected, ended⟩
        obtain ⟨sorted, sorting, matching⟩ := Outcome.bind_eq_ok ended
        obtain ⟨after, matched, advancing⟩ := Outcome.bind_eq_ok matching
        obtain ⟨found, advanced, filtering⟩ := Outcome.bind_eq_ok advancing
        obtain ⟨later, rejecting, _⟩ := Outcome.bind_eq_ok filtering
        obtain ⟨char, shaped⟩ := matchChar_ok matched
        rw [sortCandidates_eq char, Outcome.ok.injEq] at sorting
        subst sorting shaped
        rw [nil_append] at rejecting
        obtain ⟨some, each⟩ := (below found _ (within.passes pos)).mp ⟨later, rejecting⟩
        exact ⟨.inr ⟨char, found, advanced, some⟩, (passing found (behind found advanced)).mp each⟩
      · rintro ⟨opens, each⟩
        obtain ⟨char, found, advanced, some⟩ := opens.resolve_left terminal
        obtain ⟨later, rejecting⟩ := (below found _ (within.passes pos)).mpr
          ⟨some, (passing found (behind found advanced)).mpr each⟩
        rw [sortCandidates_eq char, Outcome.ok_bind]
        dsimp only
        rw [matchChar_eq char, Outcome.ok_bind]
        dsimp only
        rw [advanced, Outcome.ok_bind, nil_append, rejecting]
        exact ⟨_, rfl⟩

/-- The loop over the stacks comes back if the filter for each stack does, for the candidates
that the stacks before it have refused. -/
theorem rejectLoop_ok_iff
    {forStack : GrammarStack → List GrammarCandidate → Outcome (List GrammarCandidate)}
    {candidates : List GrammarCandidate}
    (one : ∀ stack some, (∀ tok ∈ some, tok ∈ candidates) →
      ((∃ rejected, forStack stack some = .ok rejected) ↔
        rules.Opens stack ∧ ∀ tok ∈ some, rules.Passable stack tok))
    (filters : ∀ stack some rejected, (∀ tok ∈ some, tok ∈ candidates) →
      forStack stack some = .ok rejected → rules.Filters [stack] some rejected)
    (stackSet : List GrammarStack) {some : List GrammarCandidate}
    (inside : ∀ tok ∈ some, tok ∈ candidates) :
    (∃ rejected, stackSet.foldlM (fun rejects stack => forStack stack rejects) some = .ok rejected) ↔
      ∀ front stack back, stackSet = front ++ stack :: back → rules.Opens stack ∧
        ∀ tok ∈ some, front.all (rules.refuses tok.id tok.partialUtf8 tok.rest) = true →
          rules.Passable stack tok := by
  induction stackSet generalizing some with
  | nil =>
    refine iff_of_true ⟨_, rfl⟩ ?_
    intro front stack back shape
    cases front <;> cases shape
  | cons first stackSet ih =>
    have here := one first some inside
    rw [foldlM_cons]
    constructor
    · rintro ⟨rejected, ended⟩
      obtain ⟨middle, turned, rest⟩ := Outcome.bind_eq_ok ended
      have refused := filters first some middle inside turned
      have later := (ih (fun tok member => inside tok ((refused tok).mp member).1)).mp ⟨_, rest⟩
      intro front stack back shape
      cases front with
      | nil =>
        cases shape
        obtain ⟨opens, each⟩ := here.mp ⟨_, turned⟩
        exact ⟨opens, fun tok member _ => each tok member⟩
      | cons head front =>
        injection shape with same shape
        subst same
        obtain ⟨opens, each⟩ := later front stack back shape
        refine ⟨opens, ?_⟩
        intro tok member all
        rw [all_cons, Bool.and_eq_true] at all
        refine each tok ((refused tok).mpr ⟨member, ?_⟩) all.2
        rw [all_cons, all.1]
        rfl
    · intro each
      obtain ⟨opens, passable⟩ := each [] first stackSet rfl
      obtain ⟨middle, turned⟩ := here.mpr ⟨opens, fun tok member => passable tok member rfl⟩
      have refused := filters first some middle inside turned
      rw [turned, Outcome.ok_bind]
      apply (ih (fun tok member => inside tok ((refused tok).mp member).1)).mpr
      intro front stack back shape
      obtain ⟨opens, passable⟩ := each (first :: front) stack back (by rw [shape]; rfl)
      refine ⟨opens, ?_⟩
      intro tok member all
      obtain ⟨listed, alone⟩ := (refused tok).mp member
      rw [all_cons, all_nil, Bool.and_true] at alone
      exact passable tok listed (by rw [all_cons, alone, all]; rfl)

/-- The filter comes back for some candidates if and only if it does for each of them. -/
theorem rejectCandidates_ok_iff (depth : Nat) (stackSet : List GrammarStack)
    (within : Within depth candidates) :
    (∃ rejected, rules.rejectCandidates depth stackSet candidates = .ok rejected) ↔
      stackSet ≠ [] ∧ ∀ tok ∈ candidates, rules.Comes tok.id tok.partialUtf8 tok.rest stackSet := by
  induction depth generalizing stackSet candidates with
  | zero =>
    obtain rfl := within.empty
    rw [rejectCandidates]
    cases stackSet <;> simp
  | succ depth ih =>
    rw [rejectCandidates]
    by_cases none : stackSet = []
    · simp [none]
    rw [if_neg (by simpa using none), and_iff_right none]
    by_cases empty : candidates = []
    · simp [empty]
    rw [if_neg (by simpa using empty)]
    rw [@rejectLoop_ok_iff rules (rules.rejectCandidatesForStack (rules.rejectCandidates depth))
      candidates ?_ ?_ stackSet candidates (fun _ member => member)]
    · obtain ⟨some, listed⟩ := exists_mem_of_ne_nil _ empty
      constructor
      · intro each tok member
        rw [comes_iff (within tok member).1]
        intro front stack back shape
        obtain ⟨opens, passable⟩ := each front stack back shape
        exact ⟨opens, passable tok member⟩
      · intro each front stack back shape
        have first := (comes_iff (within some listed).1 stackSet).mp (each some listed)
        refine ⟨(first front stack back shape).1, ?_⟩
        intro tok member
        exact ((comes_iff (within tok member).1 stackSet).mp (each tok member) front stack back
          shape).2
    · intro stack some inside
      apply rejectCandidatesForStack_ok_iff (fun stackSet candidates => ih stackSet)
      exact fun tok member => within tok (inside tok member)
    · intro stack some rejected inside ended
      apply rejectCandidatesForStack_filters _ ended
        (fun tok member => within tok (inside tok member))
      intro stackSet candidates rejected ended within
      exact rejectCandidates_filters depth ended within

end GrammarRules

namespace Grammar

variable {isEog : Token → Bool} {piece : Token → Bytes} {grammar : Grammar}

/-- What the filter needs to come back for the text of a token. -/
def TextComes (piece : Token → Bytes) (grammar : Grammar) (token : Token) : Prop :=
  grammar.rules.Comes token (grammar.decode piece token).2 (grammar.decode piece token).1
    grammar.stackSet

theorem rejects_ok_iff {candidates : List GrammarCandidate}
    (made : ∀ tok ∈ candidates, ∃ index token, tok = grammar.candidate piece index token) :
    (∃ rejected, grammar.rejects candidates = .ok rejected) ↔
      grammar.stackSet ≠ [] ∧ ∀ tok ∈ candidates, grammar.TextComes piece tok.id := by
  unfold rejects
  dsimp only
  rw [GrammarRules.rejectCandidates_ok_iff]
  · refine and_congr_right (fun _ => forall₂_congr ?_)
    intro tok member
    obtain ⟨index, token, rfl⟩ := made tok member
    rfl
  · exact candidates_within made

theorem wouldAccept_ok_iff {token : Token} :
    (∃ answer, grammar.wouldAccept isEog piece token = .ok answer) ↔
      (isEog token = false → hasText piece token = true →
        grammar.stackSet ≠ [] ∧ grammar.TextComes piece token) := by
  unfold wouldAccept
  cases isEog token with
  | true => simp
  | false =>
    cases hasText piece token with
    | false => simp
    | true =>
      have one := @rejects_ok_iff piece grammar [grammar.candidate piece 0 token]
        (fun tok member => ⟨0, token, mem_singleton.mp member⟩)
      rw [forall_mem_singleton] at one
      simp only [true_imp_iff]
      change _ ↔ grammar.stackSet ≠ [] ∧
        grammar.TextComes piece (grammar.candidate piece 0 token).id
      rw [← one]
      constructor
      · rintro ⟨answer, asked⟩
        obtain ⟨rejected, filtered, _⟩ := Outcome.bind_eq_ok asked
        exact ⟨rejected, filtered⟩
      · rintro ⟨rejected, filtered⟩
        refine ⟨rejected.isEmpty, ?_⟩
        simp [filtered]

theorem apply_ok_iff {Logit : Type} [DecidableEq Logit] {negInf : Logit} {row : List Logit} :
    (∃ left, grammar.apply isEog piece negInf row = .ok left) ↔
      grammar.stackSet ≠ [] ∧ ∀ id : Nat, row.getD id negInf ≠ negInf →
        ∃ answer, grammar.wouldAccept isEog piece id = .ok answer := by
  have inside : ∀ {id : Nat}, row.getD id negInf ≠ negInf → id < row.length := by
    intro id finite
    by_contra outside
    exact finite (getD_eq_default _ _ (Nat.le_of_not_lt outside))
  have texts : ∀ id : Nat, id ∈ ((List.range row.length).filter
      (fun id => row.getD id negInf ≠ negInf)).filter (fun (id : Nat) => !isEog id && hasText piece id) ↔
      row.getD id negInf ≠ negInf ∧ isEog id = false ∧ hasText piece id = true := by
    intro id
    simp only [mem_filter, mem_range, decide_eq_true_eq, Bool.and_eq_true,
      Bool.not_eq_true', and_assoc]
    exact ⟨fun listed => listed.2, fun listed => ⟨inside listed.1, listed⟩⟩
  unfold apply
  dsimp only
  generalize ((List.range row.length).filter _).filter _ = ids at texts
  have joint := @rejects_ok_iff piece grammar
    (ids.map (fun (id : Nat) => grammar.candidate piece id id)) (by
      intro tok member
      obtain ⟨id, _, rfl⟩ := mem_map.mp member
      exact ⟨id, id, rfl⟩)
  have comes : ((∃ rejected, grammar.rejects
        (ids.map (fun (id : Nat) => grammar.candidate piece id id)) = .ok rejected) ↔
      grammar.stackSet ≠ [] ∧ ∀ id : Nat, row.getD id negInf ≠ negInf →
        ∃ answer, grammar.wouldAccept isEog piece id = .ok answer) := by
    rw [joint, forall_mem_map]
    refine and_congr_right (fun some => ?_)
    simp only [texts, wouldAccept_ok_iff, and_imp, ne_eq, some, not_false_eq_true, true_and]
    rfl
  rw [← comes]
  constructor
  · rintro ⟨left, applied⟩
    obtain ⟨rejected, filtered, _⟩ := Outcome.bind_eq_ok applied
    exact ⟨rejected, filtered⟩
  · rintro ⟨rejected, filtered⟩
    rw [filtered]
    exact ⟨_, rfl⟩

/-- Masking a row comes back if and only if there is a stack and asking about each token of the
row that is not masked yet does; it leaves exactly those that are accepted then. Both come back
in every state of a grammar whose rules are not left recursive. -/
theorem apply_agrees {Logit : Type} [DecidableEq Logit] (isEog : Token → Bool)
    (piece : Token → Bytes) (grammar : Grammar) (negInf : Logit) (row : List Logit) :
    ((∃ left, grammar.apply isEog piece negInf row = .ok left) ↔
      grammar.stackSet ≠ [] ∧ ∀ id : Nat, row.getD id negInf ≠ negInf →
        ∃ answer, grammar.wouldAccept isEog piece id = .ok answer) ∧
    (∀ left, grammar.apply isEog piece negInf row = .ok left →
      left.length = row.length ∧ ∀ id : Nat, row.getD id negInf ≠ negInf →
        (left.getD id negInf ≠ negInf ↔ grammar.wouldAccept isEog piece id = .ok true)) ∧
    ∀ ruleSet, Reached ruleSet isEog piece grammar → ¬ruleSet.rules.machine.LeftRecursive →
      ∃ left, grammar.apply isEog piece negInf row = .ok left := by
  refine ⟨apply_ok_iff, ?_, ?_⟩
  · intro left applied
    obtain ⟨length, entries⟩ := apply_ok applied
    refine ⟨length, ?_⟩
    intro id finite
    obtain ⟨answer, asked⟩ := (apply_ok_iff.mp ⟨left, applied⟩).2 id finite
    rw [asked, entries, Outcome.ok.injEq, wouldAccept_ok asked]
    cases grammar.approves isEog piece id with
    | false => simp
    | true => simpa using finite
  · intro ruleSet reached direct
    have expands := GrammarRules.expands_of_direct ruleSet.shaped ruleSet.defined direct
    rw [← reached.rules] at expands
    exact apply_returns reached.sound expands negInf row

end Grammar

end Iian
