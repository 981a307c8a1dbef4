import Mathlib.Data.Finset.Card
import Mathlib.Data.Finset.Prod
import Mathlib.Logic.Relation
import Mathlib.Order.WellFoundedSet

/- Stacks of unfinished sequences, as a parser without lookahead keeps them: the call on top
is replaced by the alternates of its rule until a terminal is on top. -/
namespace Iian.Lib.Pushdown

open List Relation

/-- A grammar whose sequences are known by the position of their first symbol. -/
structure Machine (P N : Type) where
  /-- The rule that is called at a position. There is none at a terminal. -/
  calls : P → Option N
  /-- The position behind a symbol, unless its sequence ends there. -/
  rest : P → Option P
  /-- The alternates of a rule, `none` for an empty one. -/
  starts : N → List (Option P)
  left : P → Nat
  shrinks : ∀ pos next, rest pos = some next → left next < left pos

namespace Machine

variable {P N : Type} (m : Machine P N)

inductive Step : List P → List P → Prop
  | call {pos : P} {base : List P} {rule : N} {start : Option P}
      (called : m.calls pos = some rule) (listed : start ∈ m.starts rule) :
      Step (pos :: base) (start.toList ++ ((m.rest pos).toList ++ base))

abbrev Reach : List P → List P → Prop := ReflTransGen m.Step

/-- No call is on top. -/
def Settled (stack : List P) : Prop := ∀ pos ∈ stack.head?, m.calls pos = none

/-- A sequence that derives the empty string. -/
inductive Vanishes : Option P → Prop
  | nil : Vanishes none
  | call {pos : P} {rule : N} {start : Option P} (called : m.calls pos = some rule)
      (listed : start ∈ m.starts rule) (gone : Vanishes start) (rest : Vanishes (m.rest pos)) :
      Vanishes (some pos)

/-- A position in an alternate of a rule that only symbols deriving the empty string precede. -/
inductive Opens (rule : N) : P → Prop
  | start {pos : P} (listed : some pos ∈ m.starts rule) : Opens rule pos
  | next {pos next : P} {callee : N} {start : Option P} (before : Opens rule pos)
      (called : m.calls pos = some callee) (listed : start ∈ m.starts callee)
      (gone : m.Vanishes start) (behind : m.rest pos = some next) : Opens rule next

/-- The first rule can call the second before anything is read. -/
def Corner (rule callee : N) : Prop := ∃ pos, m.Opens rule pos ∧ m.calls pos = some callee

/-- The first rule can call the second before anything is read, and goes on behind it. -/
def Grows (rule callee : N) : Prop :=
  ∃ pos next, m.Opens rule pos ∧ m.calls pos = some callee ∧ m.rest pos = some next

/-- Some rule calls itself before anything is read. -/
def LeftRecursive : Prop := ∃ rule, TransGen m.Corner rule rule

/-- Some rule calls itself before anything is read, and something is left to do behind the
call. -/
def GrowsForEver : Prop := ∃ rule callee, m.Grows rule callee ∧ ReflTransGen m.Corner callee rule

variable {m}

variable {rule callee : N} {stack origin next pile : List P} {pos : P} {start : Option P}

theorem Grows.corner (grows : m.Grows rule callee) : m.Corner rule callee := by
  obtain ⟨pos, _, opens, called, _⟩ := grows
  exact ⟨pos, opens, called⟩

theorem GrowsForEver.leftRecursive (forEver : m.GrowsForEver) : m.LeftRecursive := by
  obtain ⟨rule, callee, grows, back⟩ := forEver
  exact ⟨rule, TransGen.head' grows.corner back⟩

theorem Step.frame (step : m.Step stack next) (base : List P) :
    m.Step (stack ++ base) (next ++ base) := by
  cases step with
  | call called listed =>
    rw [append_assoc, append_assoc]
    exact .call called listed

theorem Step.single (called : m.calls pos = some rule) (listed : start ∈ m.starts rule) :
    m.Step [pos] (start.toList ++ (m.rest pos).toList) := by
  rw [← append_nil (m.rest pos).toList]
  exact .call called listed

/-- What lies below a stack takes no part in its steps. -/
theorem reach_frame (path : m.Reach stack next) (base : List P) :
    m.Reach (stack ++ base) (next ++ base) := by
  induction path with
  | refl => exact .refl
  | tail _ step ih => exact ih.tail (step.frame base)

theorem Vanishes.reach (gone : m.Vanishes start) : m.Reach start.toList [] := by
  induction gone with
  | nil => exact .refl
  | call called listed _ _ first second =>
    exact ((reach_frame first _).trans second).head (.single called listed)

theorem Opens.reach (opens : m.Opens rule pos) :
    ∃ start ∈ m.starts rule, m.Reach start.toList [pos] := by
  induction opens with
  | start listed => exact ⟨_, listed, .refl⟩
  | @next pos next _ _ _ called listed gone behind ih =>
    obtain ⟨first, begins, path⟩ := ih
    have step := Step.single called listed
    rw [behind] at step
    exact ⟨first, begins, (path.tail step).trans (reach_frame gone.reach [next])⟩

/-- A rule that comes back to itself before anything is read comes back with more to do. -/
theorem corners_reach (corners : ReflTransGen m.Corner rule callee) {inner : Option P}
    (listed : inner ∈ m.starts callee) :
    ∃ start ∈ m.starts rule, ∃ below, m.Reach start.toList (inner.toList ++ below) := by
  induction corners using ReflTransGen.head_induction_on with
  | refl => exact ⟨inner, listed, [], by rw [append_nil]⟩
  | head corner _ ih =>
    obtain ⟨pos, opens, called⟩ := corner
    obtain ⟨middle, begins, below, path⟩ := ih
    obtain ⟨start, first, reached⟩ := opens.reach
    refine ⟨start, first, below ++ (m.rest pos).toList, ?_⟩
    rw [← append_assoc]
    exact (reached.tail (.single called begins)).trans (reach_frame path _)

theorem GrowsForEver.loop (forEver : m.GrowsForEver) :
    ∃ pos rule below, m.calls pos = some rule ∧ below ≠ [] ∧ m.Reach [pos] (pos :: below) := by
  obtain ⟨rule, callee, ⟨pos, next, opens, called, behind⟩, back⟩ := forEver
  obtain ⟨inner, listed, reached⟩ := opens.reach
  obtain ⟨start, begins, below, path⟩ := corners_reach back listed
  refine ⟨pos, callee, below ++ [next], called, by simp, ?_⟩
  have step := Step.single called begins
  rw [behind] at step
  have inside := (reach_frame (path.trans (reach_frame reached below)) [next]).head step
  rw [append_assoc] at inside
  exact inside

/-- Then there is no end to the stacks that are reached. -/
theorem loop_unbounded {below : List P} (more : below ≠ []) (loop : m.Reach [pos] (pos :: below))
    (size : Nat) : ∃ stack, m.Reach [pos] stack ∧ size ≤ stack.length := by
  have longer : ∃ stack, m.Reach [pos] (pos :: stack) ∧ size ≤ stack.length := by
    induction size with
    | zero => exact ⟨[], .refl, Nat.le_refl 0⟩
    | succ size ih =>
      obtain ⟨stack, path, long⟩ := ih
      refine ⟨below ++ stack, path.trans (reach_frame loop stack), ?_⟩
      have some := length_pos_of_ne_nil more
      rw [length_append]
      omega
  obtain ⟨stack, path, long⟩ := longer
  exact ⟨pos :: stack, path, Nat.le_succ_of_le long⟩

/-- What calls have left to do on their way from one rule to another, the last on top. -/
inductive Piles (rule : N) : N → List P → Prop
  | nil : Piles rule rule []
  | call {caller callee : N} {pile : List P} {pos : P} (before : Piles rule caller pile)
      (opens : m.Opens caller pos) (called : m.calls pos = some callee) :
      Piles rule callee ((m.rest pos).toList ++ pile)

theorem Opens.vanishes (opens : m.Opens rule pos) (gone : m.Vanishes (some pos)) :
    ∃ start ∈ m.starts rule, m.Vanishes start := by
  induction opens with
  | start listed => exact ⟨_, listed, gone⟩
  | next _ called listed before behind ih =>
    apply ih
    rw [← behind] at gone
    exact .call called listed before gone

/-- A stack above `low` while a rule is being expanded. -/
def Above (m : Machine P N) (low stack : List P) : Prop :=
  ∃ rule caller pile pos, m.Piles rule caller pile ∧ m.Opens caller pos ∧
    (∃ entry, m.calls entry = some rule) ∧ stack = pos :: (pile ++ low)

/-- When the rule called last is done with, what is on top opens one of the rules below. -/
theorem Piles.pop {caller : N} (piles : m.Piles rule caller pile)
    (entered : ∃ entry, m.calls entry = some rule)
    (gone : ∃ start ∈ m.starts caller, m.Vanishes start) (low : List P) :
    pile = [] ∨ m.Above low (pile ++ low) := by
  induction piles with
  | nil => exact .inl rfl
  | @call caller callee pile pos before opens called ih =>
    obtain ⟨start, listed, gone⟩ := gone
    cases behind : m.rest pos with
    | some next =>
      exact .inr ⟨rule, caller, pile, next, before,
        .next opens called listed gone behind, entered, rfl⟩
    | none =>
      apply ih
      apply opens.vanishes
      refine .call called listed gone ?_
      rw [behind]
      exact .nil

/-- The stacks reached from a stack: what is left of it, and what its calls have piled up. -/
theorem reach_shape (path : m.Reach origin stack) :
    ∃ low, low.length ≤ origin.length ∧ (stack = low ∨ m.Above low stack) := by
  induction path with
  | refl => exact ⟨origin, Nat.le_refl _, .inl rfl⟩
  | tail _ step ih =>
    obtain ⟨low, short, shape⟩ := ih
    cases step with
    | @call pos base callee start called listed =>
      rcases shape with rfl | ⟨rule, caller, pile, top, piles, opens, entered, shape⟩
      · -- the call is one of the original stack
        rw [length_cons] at short
        refine ⟨(m.rest pos).toList ++ base, ?_, ?_⟩
        · cases m.rest pos <;> simp only [Option.toList, length_append, length_cons,
            length_nil] <;> omega
        cases start with
        | none => exact .inl rfl
        | some first =>
          exact .inr ⟨callee, callee, [], first, .nil, .start listed, ⟨pos, called⟩, rfl⟩
      · injection shape with same shape
        subst same shape
        cases start with
        | some first =>
          refine ⟨low, short, .inr ⟨rule, callee, (m.rest pos).toList ++ pile, first,
            .call piles opens called, .start listed, entered, ?_⟩⟩
          rw [append_assoc]
          rfl
        | none =>
          cases behind : m.rest pos with
          | some next =>
            exact ⟨low, short, .inr ⟨rule, caller, pile, next, piles,
              .next opens called listed .nil behind, entered, rfl⟩⟩
          | none =>
            have gone := opens.vanishes (.call called listed .nil (by rw [behind]; exact .nil))
            rcases piles.pop entered gone low with rfl | above
            · exact ⟨low, short, .inl rfl⟩
            · exact ⟨low, short, .inr above⟩

/-- A rule leads to another, and leaves something to do on the way. -/
def GrowsTo (m : Machine P N) (rule callee : N) : Prop :=
  ∃ first second, ReflTransGen m.Corner rule first ∧ m.Grows first second ∧
    ReflTransGen m.Corner second callee

/-- Every entry of a pile belongs to another rule. -/
theorem Piles.rules {caller : N} (piles : m.Piles rule caller pile) :
    ∃ callees : List N, callees.length = pile.length + 1 ∧
      callees.Pairwise (fun later earlier => m.GrowsTo earlier later) ∧
      (∀ callee ∈ callees, ReflTransGen m.Corner callee caller) ∧
      ∀ callee ∈ callees, callee = rule ∨ ∃ pos, m.calls pos = some callee := by
  induction piles with
  | nil =>
    refine ⟨[rule], rfl, pairwise_singleton _ _, ?_, ?_⟩
    · exact forall_mem_singleton.mpr .refl
    · exact forall_mem_singleton.mpr (.inl rfl)
  | @call caller callee pile pos _ opens called ih =>
    obtain ⟨callees, size, distinct, lead, known⟩ := ih
    have further : ∀ earlier ∈ callees, ReflTransGen m.Corner earlier callee :=
      fun earlier member => (lead earlier member).tail ⟨pos, opens, called⟩
    cases behind : m.rest pos with
    | none => exact ⟨callees, size, distinct, further, known⟩
    | some next =>
      refine ⟨callee :: callees, ?_, pairwise_cons.mpr ⟨?_, distinct⟩, ?_, ?_⟩
      · rw [length_cons, size]
        rfl
      · exact fun earlier member =>
          ⟨caller, callee, lead earlier member, ⟨pos, next, opens, called, behind⟩, .refl⟩
      · exact forall_mem_cons.mpr ⟨.refl, further⟩
      · exact forall_mem_cons.mpr ⟨.inr ⟨pos, called⟩, known⟩

theorem GrowsTo.ne (bounded : ¬m.GrowsForEver) (grows : m.GrowsTo rule callee) : rule ≠ callee := by
  rintro rfl
  obtain ⟨first, second, before, here, after⟩ := grows
  exact bounded ⟨first, second, here, after.trans before⟩

/-- Without a rule that grows for ever, a stack grows by at most the number of rules. -/
theorem reach_length (bounded : ¬m.GrowsForEver) (within : Finset N)
    (known : ∀ pos rule, m.calls pos = some rule → rule ∈ within) (path : m.Reach origin stack) :
    stack.length ≤ origin.length + within.card := by
  obtain ⟨low, short, rfl | ⟨rule, caller, pile, pos, piles, _, ⟨entry, entered⟩, rfl⟩⟩ :=
    reach_shape path
  · omega
  obtain ⟨callees, size, distinct, _, called⟩ := piles.rules
  have unique : callees.Nodup := distinct.imp (fun grows => (grows.ne bounded).symm)
  have inside : ∀ callee ∈ callees, callee ∈ within := by
    intro callee member
    rcases called callee member with rfl | ⟨other, called⟩
    · exact known entry callee entered
    · exact known other callee called
  classical
  have few : callees.length ≤ within.card := by
    rw [← toFinset_card_of_nodup unique]
    exact Finset.card_le_card (fun callee member => inside callee (mem_toFinset.mp member))
  rw [length_cons, length_append]
  omega

/-- A sequence that vanishes or comes to a terminal. -/
def Comes (m : Machine P N) (start : Option P) : Prop :=
  m.Vanishes start ∨ ∃ pos base, m.Reach start.toList (pos :: base) ∧ m.calls pos = none

/-- A sequence comes to an end when every rule that is called on the way does. -/
theorem comes_of_calls {inside : P → Prop}
    (closed : ∀ {pos next rule start}, inside pos → m.calls pos = some rule →
      start ∈ m.starts rule → m.Vanishes start → m.rest pos = some next → inside next)
    (called : ∀ {pos rule}, inside pos → m.calls pos = some rule →
      ∃ start ∈ m.starts rule, m.Comes start) (pos : P) (here : inside pos) :
    m.Comes (some pos) := by
  cases call : m.calls pos with
  | none => exact .inr ⟨pos, [], .refl, call⟩
  | some rule =>
    obtain ⟨start, listed, gone | ⟨top, base, path, terminal⟩⟩ := called here call
    · cases behind : m.rest pos with
      | none => exact .inl (.call call listed gone (by rw [behind]; exact .nil))
      | some next =>
        have smaller := m.shrinks pos next behind
        rcases comes_of_calls closed called next (closed here call listed gone behind) with
          later | ⟨top, base, path, terminal⟩
        · exact .inl (.call call listed gone (by rw [behind]; exact later))
        · have step := Step.single call listed
          rw [behind] at step
          exact .inr ⟨top, base, ((reach_frame gone.reach [next]).trans path).head step, terminal⟩
    · exact .inr ⟨top, base ++ (m.rest pos).toList,
        (reach_frame path _).head (.single call listed), terminal⟩
termination_by m.left pos

section

variable (direct : ¬m.LeftRecursive) (within : Finset N)
  (known : ∀ pos rule, m.calls pos = some rule → rule ∈ within)
  (listed : ∀ rule, m.starts rule ≠ [])

include direct known listed

/-- Calls go down the rules when none of them is left recursive. -/
theorem rule_comes (rule : N) (inside : rule ∈ within) : ∃ start ∈ m.starts rule, m.Comes start := by
  have : IsStrictOrder N (fun callee rule => TransGen m.Corner rule callee) :=
    { irrefl := fun rule cycle => direct ⟨rule, cycle⟩
      trans := fun _ _ _ first second => second.trans first }
  have founded := @Finset.wellFoundedOn N (fun callee rule => TransGen m.Corner rule callee) this
    within
  refine founded.induction (P := fun rule => ∃ start ∈ m.starts rule, m.Comes start) inside ?_
  intro rule _ ih
  obtain ⟨start, member⟩ := exists_mem_of_ne_nil _ (listed rule)
  refine ⟨start, member, ?_⟩
  cases start with
  | none => exact .inl .nil
  | some first =>
    refine @comes_of_calls P N m (m.Opens rule) Opens.next ?_ first (.start member)
    intro pos callee opens called
    exact ih callee (known pos callee called) (.single ⟨pos, opens, called⟩)

/-- Without left recursion every stack comes to one without a call on top. -/
theorem reach_settled (stack : List P) : ∃ settled, m.Reach stack settled ∧ m.Settled settled := by
  induction stack with
  | nil => exact ⟨[], .refl, nofun⟩
  | cons pos base ih =>
    have comes : m.Comes (some pos) :=
      @comes_of_calls P N m (fun _ => True) (fun _ _ _ _ _ => trivial)
        (fun _ called => rule_comes direct within known listed _ (known _ _ called)) pos trivial
    rcases comes with gone | ⟨top, above, path, terminal⟩
    · obtain ⟨settled, path, fine⟩ := ih
      exact ⟨settled, (reach_frame gone.reach base).trans path, fine⟩
    refine ⟨top :: above ++ base, reach_frame path base, ?_⟩
    intro other first
    cases first
    exact terminal

end

end Machine

/-- The lists of bounded length over a finite set. -/
def listsUpTo {P : Type} [DecidableEq P] (letters : Finset P) : Nat → Finset (List P)
  | 0 => {[]}
  | size + 1 =>
    insert [] ((letters ×ˢ listsUpTo letters size).image (fun pair => pair.1 :: pair.2))

section

variable {P : Type} [DecidableEq P] {letters : Finset P}

theorem mem_listsUpTo {size : Nat} {list : List P} (short : list.length ≤ size)
    (inside : ∀ letter ∈ list, letter ∈ letters) : list ∈ listsUpTo letters size := by
  induction size generalizing list with
  | zero =>
    rw [eq_nil_of_length_eq_zero (Nat.le_zero.mp short)]
    exact Finset.mem_singleton_self _
  | succ size ih =>
    rw [listsUpTo, Finset.mem_insert]
    cases list with
    | nil => exact .inl rfl
    | cons letter list =>
      obtain ⟨here, later⟩ := forall_mem_cons.mp inside
      refine .inr (Finset.mem_image.mpr ⟨(letter, list), ?_, rfl⟩)
      exact Finset.mem_product.mpr ⟨here, ih (Nat.le_of_succ_le_succ short) later⟩

theorem card_listsUpTo (size : Nat) :
    (listsUpTo letters size).card ≤ (letters.card + 1) ^ size := by
  induction size with
  | zero => exact Nat.le_refl 1
  | succ size ih =>
    have positive : 1 ≤ (letters.card + 1) ^ size := Nat.one_le_pow _ _ (Nat.succ_pos _)
    calc (listsUpTo letters (size + 1)).card
        ≤ (letters ×ˢ listsUpTo letters size).card + 1 :=
          (Finset.card_insert_le _ _).trans (Nat.add_le_add_right Finset.card_image_le 1)
      _ = letters.card * (listsUpTo letters size).card + 1 := by rw [Finset.card_product]
      _ ≤ letters.card * (letters.card + 1) ^ size + (letters.card + 1) ^ size :=
          Nat.add_le_add (Nat.mul_le_mul_left _ ih) positive
      _ = (letters.card + 1) ^ (size + 1) := by rw [Nat.pow_succ', Nat.add_mul, Nat.one_mul]

end

end Iian.Lib.Pushdown
