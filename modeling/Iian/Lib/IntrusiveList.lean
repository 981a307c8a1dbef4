import Mathlib.Data.List.Nodup
import Mathlib.Data.List.Induction
import Mathlib.Data.List.Perm.Subperm

/- Doubly linked lists threaded through a fixed array of nodes. An absent link is
`none`; `Represents` ties the links to the sequence of node indices they spell. -/
namespace Iian.Lib

open List

structure Node where
  prev : Option Nat := none
  next : Option Nat := none
  linked : Bool := false
deriving DecidableEq, Repr

structure IntrusiveList where
  nodes : List Node
  head : Option Nat := none
  tail : Option Nat := none
  size : Nat := 0
deriving DecidableEq, Repr

variable {index : Nat} {fresh nodeAt : Nat → Node} {before after : Option Nat}
    {indices front : List Nat} {list : IntrusiveList}

namespace IntrusiveList

section

variable (list : IntrusiveList)

def node (index : Nat) : Node := list.nodes.getD index {}

def setNode (index : Nat) (value : Node) : IntrusiveList :=
  { list with nodes := list.nodes.set index value }

/-- Redirect the forward link leaving `before`, or the head when nothing is before. -/
def linkForward (before target : Option Nat) : IntrusiveList :=
  match before with
  | some index => list.setNode index { list.node index with next := target }
  | none => { list with head := target }

/-- Redirect the backward link leaving `after`, or the tail when nothing is after. -/
def linkBackward (after target : Option Nat) : IntrusiveList :=
  match after with
  | some index => list.setNode index { list.node index with prev := target }
  | none => { list with tail := target }

def remove (index : Nat) : IntrusiveList :=
  let old := list.node index
  if old.linked then
    let bypassed := (list.linkForward old.prev old.next).linkBackward old.next old.prev
    { bypassed.setNode index {} with size := list.size - 1 }
  else list

def pushFront (index : Nat) : IntrusiveList :=
  let placed := list.setNode index { prev := none, next := list.head, linked := true }
  { placed.linkBackward list.head (some index) with
    head := some index, size := list.size + 1 }

def pushBack (index : Nat) : IntrusiveList :=
  let placed := list.setNode index { prev := list.tail, next := none, linked := true }
  { placed.linkForward list.tail (some index) with
    tail := some index, size := list.size + 1 }

def popFront : Option Nat × IntrusiveList :=
  match list.head with
  | none => (none, list)
  | some index => (some index, list.remove index)

/-- The nodes met by following at most `steps` forward links. -/
def walkNext (list : IntrusiveList) : Nat → Option Nat → List Nat
  | 0, _ => []
  | _, none => []
  | steps + 1, some index => index :: list.walkNext steps (list.node index).next

def walkPrev (list : IntrusiveList) : Nat → Option Nat → List Nat
  | 0, _ => []
  | _, none => []
  | steps + 1, some index => index :: list.walkPrev steps (list.node index).prev

theorem node_setNode_same (index : Nat) (value : Node) (bound : index < list.nodes.length) :
    (list.setNode index value).node index = value := by
  simp only [node, setNode, getD_eq_getElem?_getD, getElem?_set_self bound, Option.getD_some]

theorem node_setNode_other {other : Nat} (value : Node) (different : index ≠ other) :
    (list.setNode index value).node other = list.node other := by
  simp only [node, setNode, getD_eq_getElem?_getD, getElem?_set_ne different]

@[simp] theorem setNode_length (index : Nat) (value : Node) :
    (list.setNode index value).nodes.length = list.nodes.length := length_set

@[simp] theorem linkForward_length (before target : Option Nat) :
    (list.linkForward before target).nodes.length = list.nodes.length := by
  cases before <;> simp [linkForward]

@[simp] theorem linkBackward_length (after target : Option Nat) :
    (list.linkBackward after target).nodes.length = list.nodes.length := by
  cases after <;> simp [linkBackward]

@[simp] theorem remove_length (index : Nat) :
    (list.remove index).nodes.length = list.nodes.length := by
  simp only [remove]
  split
  · simp
  · rfl

@[simp] theorem pushFront_length (index : Nat) :
    (list.pushFront index).nodes.length = list.nodes.length := by
  simp [pushFront]

@[simp] theorem pushBack_length (index : Nat) :
    (list.pushBack index).nodes.length = list.nodes.length := by
  simp [pushBack]

end

/-- A run of linked nodes, entered backwards from `before` and left towards `after`. -/
def Segment (nodeAt : Nat → Node) : Option Nat → List Nat → Option Nat → Prop
  | _, [], _ => True
  | before, index :: rest, after =>
    nodeAt index = { prev := before, next := rest.head?.or after, linked := true } ∧
      Segment nodeAt (some index) rest after

theorem Segment.congr {old : Nat → Node} (segment : Segment old before indices after)
    (same : ∀ index ∈ indices, fresh index = old index) : Segment fresh before indices after := by
  induction indices generalizing before with
  | nil => trivial
  | cons index rest ih =>
    refine ⟨(same index (by simp)).trans segment.1, ih segment.2 ?_⟩
    intro other member
    exact same other (mem_cons_of_mem _ member)

theorem segment_append (nodeAt : Nat → Node) (before after : Option Nat)
    (front back : List Nat) :
    Segment nodeAt before (front ++ back) after ↔
      Segment nodeAt before front (back.head?.or after) ∧
        Segment nodeAt (front.getLast?.or before) back after := by
  induction front generalizing before with
  | nil => simp [Segment]
  | cons index rest ih =>
    have last : ((index :: rest).getLast?.or before) = rest.getLast?.or (some index) := by
      cases rest with
      | nil => rfl
      | cons next tail => simp [getLast?_cons]
    rw [cons_append, last]
    simp only [Segment, ih (some index), head?_append, Option.or_assoc, and_assoc]

/-- Only the first node of a run remembers where the run is entered from. -/
theorem Segment.reenter {entry : Option Nat} (segment : Segment nodeAt before indices after)
    (nodup : indices.Nodup)
    (first : ∀ index ∈ indices.head?, fresh index = { nodeAt index with prev := entry })
    (same : ∀ index ∈ indices, indices.head? ≠ some index → fresh index = nodeAt index) :
    Segment fresh entry indices after := by
  cases indices with
  | nil => trivial
  | cons index rest =>
    refine ⟨?_, segment.2.congr ?_⟩
    · rw [first index rfl, segment.1]
    intro other member
    refine same other (mem_cons_of_mem _ member) ?_
    rintro ⟨⟩
    exact (nodup_cons.mp nodup).1 member

/-- Only the last node of a run remembers where the run leads. -/
theorem Segment.redirect {exit : Option Nat} (segment : Segment nodeAt before indices after)
    (nodup : indices.Nodup)
    (last : ∀ index ∈ indices.getLast?, fresh index = { nodeAt index with next := exit })
    (same : ∀ index ∈ indices, indices.getLast? ≠ some index → fresh index = nodeAt index) :
    Segment fresh before indices exit := by
  rcases eq_nil_or_concat indices with rfl | ⟨front, index, rfl⟩
  · trivial
  rw [concat_eq_append] at *
  rw [segment_append] at segment ⊢
  refine ⟨segment.1.congr ?_, ?_, trivial⟩
  · intro other member
    refine same other (mem_append_left _ member) ?_
    rw [getLast?_concat]
    rintro ⟨⟩
    exact (nodup_append.mp nodup).2.2 _ member _ mem_cons_self rfl
  · rw [last index getLast?_concat, segment.2.1]
    rfl

/-- The links spell exactly the listed indices, in order and each once; every other
node is fully unlinked. -/
structure Represents (list : IntrusiveList) (indices : List Nat) : Prop where
  nodup : indices.Nodup
  bounded : ∀ index ∈ indices, index < list.nodes.length
  head : list.head = indices.head?
  tail : list.tail = indices.getLast?
  links : Segment list.node none indices none
  detached : ∀ index, index ∉ indices → list.node index = {}
  size : list.size = indices.length

theorem Segment.node_linked (segment : Segment nodeAt before indices after)
    (member : index ∈ indices) : (nodeAt index).linked = true := by
  induction indices generalizing before with
  | nil => cases member
  | cons first rest ih =>
    rcases mem_cons.mp member with same | later
    · subst same
      rw [segment.1]
    · exact ih segment.2 later

theorem Represents.linked_iff (represents : Represents list indices) (index : Nat) :
    (list.node index).linked = true ↔ index ∈ indices := by
  constructor
  · intro linked
    by_contra absent
    rw [represents.detached index absent] at linked
    cases linked
  · exact represents.links.node_linked

theorem Represents.unlinked (represents : Represents list indices) (absent : index ∉ indices) :
    (list.node index).linked = false := by
  rw [represents.detached index absent]

section

variable (list : IntrusiveList)

theorem node_linkForward_at (index : Nat) (target : Option Nat) (bound : index < list.nodes.length) :
    (list.linkForward (some index) target).node index = { list.node index with next := target } :=
  node_setNode_same list index _ bound

theorem node_linkForward_other (target : Option Nat) (different : before ≠ some index) :
    (list.linkForward before target).node index = list.node index := by
  cases before with
  | none => rfl
  | some other => exact node_setNode_other list _ (fun same => different (congrArg some same))

theorem node_linkBackward_at (index : Nat) (target : Option Nat) (bound : index < list.nodes.length) :
    (list.linkBackward (some index) target).node index = { list.node index with prev := target } :=
  node_setNode_same list index _ bound

theorem node_linkBackward_other (target : Option Nat) (different : after ≠ some index) :
    (list.linkBackward after target).node index = list.node index := by
  cases after with
  | none => rfl
  | some other => exact node_setNode_other list _ (fun same => different (congrArg some same))

theorem linkForward_head (before target : Option Nat) :
    (list.linkForward before target).head = if before.isSome then list.head else target := by
  cases before <;> rfl

@[simp] theorem linkForward_tail (before target : Option Nat) :
    (list.linkForward before target).tail = list.tail := by
  cases before <;> rfl

@[simp] theorem linkBackward_head (after target : Option Nat) :
    (list.linkBackward after target).head = list.head := by
  cases after <;> rfl

theorem linkBackward_tail (after target : Option Nat) :
    (list.linkBackward after target).tail = if after.isSome then list.tail else target := by
  cases after <;> rfl

end

theorem empty_represents (count : Nat) :
    Represents { nodes := List.replicate count {} } [] where
  nodup := nodup_nil
  bounded := by intro index member; cases member
  head := rfl
  tail := rfl
  links := trivial
  detached := by
    intro index _
    simp only [node, getD_eq_getElem?_getD, getElem?_replicate]
    split <;> rfl
  size := rfl

/-- A part of the list is exchanged: only the neighbours of the part are linked anew. -/
theorem Represents.splice {next : IntrusiveList} {middle part back : List Nat}
    (represents : Represents list (front ++ (middle ++ back)))
    (nodup : (front ++ (part ++ back)).Nodup) (nodes : next.nodes.length = list.nodes.length)
    (bounded : ∀ index ∈ part, index < list.nodes.length)
    (head : next.head = (front ++ (part ++ back)).head?)
    (tail : next.tail = (front ++ (part ++ back)).getLast?)
    (size : next.size = (front ++ (part ++ back)).length)
    (inner : Segment next.node front.getLast? part back.head?)
    (last : ∀ index ∈ front.getLast?,
      next.node index = { list.node index with next := part.head?.or back.head? })
    (first : ∀ index ∈ back.head?,
      next.node index = { list.node index with prev := part.getLast?.or front.getLast? })
    (gone : ∀ index ∈ middle, index ∉ part → next.node index = {})
    (elsewhere : ∀ index, index ∉ middle → index ∉ part → front.getLast? ≠ some index →
      back.head? ≠ some index → next.node index = list.node index) :
    Represents next (front ++ (part ++ back)) := by
  obtain ⟨frontOnce, restOnce, apart⟩ := nodup_append.mp represents.nodup
  obtain ⟨_, backOnce, middleBack⟩ := nodup_append.mp restOnce
  obtain ⟨_, newOnce, newApart⟩ := nodup_append.mp nodup
  have links := represents.links
  simp only [segment_append, head?_append, Option.or_none] at links
  refine ⟨nodup, ?_, head, tail, ?_, ?_, size⟩
  · intro index member
    rw [nodes]
    rcases mem_append.mp member with left | right
    · exact represents.bounded index (mem_append_left _ left)
    · rcases mem_append.mp right with here | right
      · exact bounded index here
      · exact represents.bounded index (mem_append_right _ (mem_append_right _ right))
  · simp only [segment_append, head?_append, Option.or_none]
    refine ⟨links.1.redirect frontOnce last ?_, inner, links.2.2.reenter backOnce first ?_⟩
    · intro index member inside
      refine elsewhere index ?_ ?_ inside ?_
      · exact fun other => apart index member index (mem_append_left _ other) rfl
      · exact fun other => newApart index member index (mem_append_left _ other) rfl
      · exact fun other =>
          apart index member index (mem_append_right _ (mem_of_mem_head? other)) rfl
    · intro index member
      refine elsewhere index ?_ ?_ ?_
      · exact fun other => middleBack index other index member rfl
      · exact fun other => (nodup_append.mp newOnce).2.2 index other index member rfl
      · exact fun other => apart index (mem_of_mem_getLast? other) index
          (mem_append_right _ member) rfl
  · intro index outside
    simp only [mem_append, not_or] at outside
    by_cases old : index ∈ middle
    · exact gone index old outside.2.1
    rw [elsewhere index old outside.2.1]
    · apply represents.detached
      simp only [mem_append, not_or]
      exact ⟨outside.1, old, outside.2.2⟩
    · exact fun other => outside.1 (mem_of_mem_getLast? other)
    · exact fun other => outside.2.2 (mem_of_mem_head? other)

section

variable (represents : Represents list indices) (absent : index ∉ indices)
    (bound : index < list.nodes.length)

include represents absent bound

theorem Represents.pushFront : Represents (list.pushFront index) (index :: indices) := by
  have notHead : list.head ≠ some index := by
    rw [represents.head]
    exact fun same => absent (mem_of_mem_head? same)
  refine @Represents.splice [] list (list.pushFront index) [] [index] indices represents
    (nodup_cons.mpr ⟨absent, represents.nodup⟩) (list.pushFront_length index)
    (forall_mem_singleton.mpr bound) rfl ?_ ?_ ⟨?_, trivial⟩ nofun ?_ nofun ?_
  · change ((list.setNode index _).linkBackward list.head (some index)).tail = _
    rw [linkBackward_tail, represents.head]
    cases indices with
    | nil => rfl
    | cons first rest => exact represents.tail
  · change list.size + 1 = _
    rw [represents.size]
    rfl
  · change ((list.setNode index _).linkBackward list.head (some index)).node index = _
    rw [node_linkBackward_other _ _ notHead, node_setNode_same _ _ _ bound, represents.head]
    rfl
  · intro first isFirst
    have member := mem_of_mem_head? isFirst
    change ((list.setNode index _).linkBackward list.head (some index)).node first = _
    rw [represents.head, isFirst, node_linkBackward_at, node_setNode_other]
    · rfl
    · exact fun same => absent (same ▸ member)
    · rw [setNode_length]
      exact represents.bounded first member
  · intro other _ outside _ notFirst
    rw [mem_singleton] at outside
    change ((list.setNode index _).linkBackward list.head (some index)).node other = _
    rw [node_linkBackward_other, node_setNode_other _ _ (Ne.symm outside)]
    rw [represents.head]
    exact notFirst

theorem Represents.pushBack :
    Represents (list.pushBack index) (indices ++ [index]) := by
  have notTail : list.tail ≠ some index := by
    rw [represents.tail]
    exact fun same => absent (mem_of_mem_getLast? same)
  have whole : Represents list (indices ++ ([] ++ [])) := by
    rw [append_nil, append_nil]
    exact represents
  refine @Represents.splice indices list (list.pushBack index) [] [index] [] whole
    (nodup_append.mpr ⟨represents.nodup, nodup_singleton index, ?_⟩) (list.pushBack_length index)
    (forall_mem_singleton.mpr bound) ?_ ?_ ?_ ⟨?_, trivial⟩ ?_ nofun nofun ?_
  · intro other member last isLast same
    rw [append_nil, mem_singleton] at isLast
    exact absent (isLast ▸ same ▸ member)
  · change ((list.setNode index _).linkForward list.tail (some index)).head = _
    rw [linkForward_head, represents.tail]
    cases indices with
    | nil => rfl
    | cons first rest =>
      rw [getLast?_eq_getLast_of_ne_nil (cons_ne_nil first rest)]
      exact represents.head
  · exact getLast?_concat.symm
  · change list.size + 1 = _
    rw [represents.size, length_append]
    rfl
  · change ((list.setNode index _).linkForward list.tail (some index)).node index = _
    rw [node_linkForward_other _ _ notTail, node_setNode_same _ _ _ bound, represents.tail]
    rfl
  · intro last isLast
    have member := mem_of_mem_getLast? isLast
    change ((list.setNode index _).linkForward list.tail (some index)).node last = _
    rw [represents.tail, isLast, node_linkForward_at, node_setNode_other]
    · rfl
    · exact fun same => absent (same ▸ member)
    · rw [setNode_length]
      exact represents.bounded last member
  · intro other _ outside notLast _
    rw [mem_singleton] at outside
    change ((list.setNode index _).linkForward list.tail (some index)).node other = _
    rw [node_linkForward_other, node_setNode_other _ _ (Ne.symm outside)]
    rw [represents.tail]
    exact notLast

end

/-- Removal joins the two neighbours and leaves the removed node unlinked. -/
theorem Represents.remove_split {back : List Nat}
    (represents : Represents list (front ++ index :: back)) :
    Represents (list.remove index) (front ++ back) := by
  have distinct := nodup_append.mp represents.nodup
  have notFront : index ∉ front := fun member => distinct.2.2 index member index (by simp) rfl
  have notBack : index ∉ back := (nodup_cons.mp distinct.2.1).1
  have frontBack : ∀ left ∈ front, ∀ right ∈ back, left ≠ right :=
    fun left member right later => distinct.2.2 left member right (mem_cons_of_mem _ later)
  -- the links of a member name exactly its two neighbours
  have here : list.node index = { prev := front.getLast?, next := back.head?, linked := true } := by
    have links := represents.links
    rw [segment_append] at links
    rw [links.2.1, Option.or_none, Option.or_none]
  have unfolded : list.remove index =
      { ((list.linkForward front.getLast? back.head?).linkBackward back.head? front.getLast?).setNode
          index {} with size := list.size - 1 } := by
    simp only [remove, here, ↓reduceIte]
  refine @Represents.splice front list (list.remove index) [index] [] back represents
    (nodup_append.mpr ⟨distinct.1, (nodup_cons.mp distinct.2.1).2, frontBack⟩)
    (list.remove_length index) nofun ?_ ?_ ?_ trivial ?_ ?_ ?_ ?_ <;> rw [unfolded]
  · change ((list.linkForward _ _).linkBackward _ _).head = _
    rw [linkBackward_head, linkForward_head, represents.head]
    cases front with
    | nil => rfl
    | cons first rest =>
      rw [getLast?_eq_getLast_of_ne_nil (cons_ne_nil first rest)]
      rfl
  · change ((list.linkForward _ _).linkBackward _ _).tail = _
    rw [linkBackward_tail, linkForward_tail, represents.tail]
    cases back with
    | nil => simp
    | cons first rest => simp [getLast?_append, getLast?_cons]
  · change list.size - 1 = _
    rw [represents.size]
    simp
  · intro last isLast
    have member := mem_of_mem_getLast? isLast
    change (((list.linkForward _ _).linkBackward _ _).setNode index {}).node last = _
    rw [node_setNode_other _ _ (fun same : index = last => notFront (same ▸ member)),
      node_linkBackward_other, isLast, node_linkForward_at]
    · rfl
    · exact represents.bounded last (mem_append_left _ member)
    · exact fun same => frontBack last member last (mem_of_mem_head? same) rfl
  · intro first isFirst
    have member := mem_of_mem_head? isFirst
    change (((list.linkForward _ _).linkBackward _ _).setNode index {}).node first = _
    rw [node_setNode_other _ _ (fun same : index = first => notBack (same ▸ member)), isFirst,
      node_linkBackward_at, node_linkForward_other]
    · rfl
    · exact fun same => frontBack first (mem_of_mem_getLast? same) first member rfl
    · rw [linkForward_length]
      exact represents.bounded first (mem_append_right _ (mem_cons_of_mem _ member))
  · intro other same _
    rw [mem_singleton.mp same]
    apply node_setNode_same
    simpa using represents.bounded index (by simp)
  · intro other different _ notLast notFirst
    rw [mem_singleton] at different
    change (((list.linkForward _ _).linkBackward _ _).setNode index {}).node other = _
    rw [node_setNode_other _ _ (Ne.symm different), node_linkBackward_other _ _ notFirst,
      node_linkForward_other _ _ notLast]

theorem Represents.remove (represents : Represents list indices) (index : Nat) :
    Represents (list.remove index) (indices.erase index) := by
  by_cases member : index ∈ indices
  · obtain ⟨front, back, shape⟩ := append_of_mem member
    subst shape
    have notFront : index ∉ front := fun earlier =>
      (nodup_append.mp represents.nodup).2.2 index earlier index (by simp) rfl
    rw [erase_append_right _ notFront, erase_cons_head]
    exact represents.remove_split
  · rw [erase_of_not_mem member]
    have unchanged : list.remove index = list := by
      simp only [IntrusiveList.remove, represents.unlinked member, Bool.false_eq_true, ↓reduceIte]
    rw [unchanged]
    exact represents

theorem Represents.popFront_cons {rest : List Nat} (represents : Represents list (index :: rest)) :
    list.popFront = (some index, list.remove index) ∧ Represents (list.remove index) rest := by
  constructor
  · simp only [popFront, represents.head, head?_cons]
  · have first : Represents list ([] ++ index :: rest) := represents
    exact first.remove_split

theorem Segment.walkNext (segment : Segment list.node before indices none) (steps : Nat)
    (enough : indices.length ≤ steps) : list.walkNext steps indices.head? = indices := by
  induction indices generalizing before steps with
  | nil => cases steps <;> rfl
  | cons index rest ih =>
    cases steps with
    | zero => simp at enough
    | succ steps =>
      simp only [head?_cons, IntrusiveList.walkNext, segment.1, Option.or_none]
      rw [ih segment.2 steps (by simpa using enough)]

theorem Segment.walkPrev (segment : Segment list.node none indices after) (steps : Nat)
    (enough : indices.length ≤ steps) : list.walkPrev steps indices.getLast? = indices.reverse := by
  induction indices using List.reverseRecOn generalizing after steps with
  | nil => cases steps <;> rfl
  | append_singleton front index ih =>
    cases steps with
    | zero => simp at enough
    | succ steps =>
      rw [segment_append] at segment
      simp only [getLast?_concat, IntrusiveList.walkPrev, segment.2.1, Option.or_none,
        reverse_append, reverse_singleton, singleton_append]
      rw [ih segment.1 steps (by simpa using enough)]

/-- Following the forward links from the head and the backward links from the tail
meets the same nodes in opposite orders, and both walks end. -/
theorem Represents.walks (represents : Represents list indices) {steps : Nat}
    (bound : list.nodes.length ≤ steps) :
    list.walkNext steps list.head = indices ∧ list.walkPrev steps list.tail = indices.reverse := by
  have enough : indices.length ≤ list.nodes.length := by
    have subset : indices ⊆ List.range list.nodes.length := by
      intro index member
      exact mem_range.mpr (represents.bounded index member)
    simpa using (subperm_of_subset represents.nodup subset).length_le
  rw [represents.head, represents.tail]
  exact ⟨represents.links.walkNext _ (by omega), represents.links.walkPrev _ (by omega)⟩

end IntrusiveList

end Iian.Lib
