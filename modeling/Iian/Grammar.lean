import Iian.Lib.Worklist
import Iian.Sampling

/- The grammar engine: rules, pushdown stacks and what they make of the tokens.

Rules are kept as the parser emits them. A pointer to an element is the index of its rule
and its index in that rule, and stacks are listed from their top. Grammars that wait for a
trigger are left out; the engine makes none. -/
namespace Iian

inductive GreType
  | endRule
  | alt
  | ruleRef
  | char
  | charNot
  | charRngUpper
  | charAlt
  | charAny
  | token
  | tokenNot
deriving DecidableEq, Repr

namespace GreType

def isEndOfSequence : GreType → Bool
  | .endRule | .alt => true
  | _ => false

def isPositiveChar : GreType → Bool
  | .char | .charAny => true
  | _ => false

def isChar (type : GreType) : Bool := type.isPositiveChar || type == .charNot

def isToken : GreType → Bool
  | .token | .tokenNot => true
  | _ => false

end GreType

structure GrammarElement where
  type : GreType
  value : Nat := 0
deriving DecidableEq, Repr

abbrev GrammarRule := List GrammarElement

abbrev GrammarRules := List GrammarRule

structure GrammarPos where
  rule : Nat
  index : Nat
deriving DecidableEq, Repr

def GrammarPos.skip (pos : GrammarPos) (count : Nat) : GrammarPos :=
  { pos with index := pos.index + count }

abbrev GrammarStack := List GrammarPos

/-- Bits of a character that is still incomplete; `nRemain` is -1 after an invalid sequence. -/
structure PartialUtf8 where
  value : Nat := 0
  nRemain : Int := 0
deriving DecidableEq, Repr

/-- The number of bytes of a sequence, by the high bits of its first byte. -/
def utf8Length (highbits : UInt8) : Int :=
  if highbits < 8 then 1 else if highbits < 12 then 0 else if highbits < 14 then 2
  else if highbits < 15 then 3 else 4

/-- The loop that continues a character of the previous token. -/
def resumeUtf8 : Bytes → Nat → Int → Option (Bytes × Nat × Int)
  | [], value, nRemain => some ([], value, nRemain)
  | byte :: bytes, value, nRemain =>
    if nRemain ≤ 0 then some (byte :: bytes, value, nRemain)
    else if byte >>> 6 ≠ 2 then none
    else resumeUtf8 bytes (value * 64 + (byte &&& 0x3F).toNat) (nRemain - 1)

/-- The loop over the following characters, byte by byte. -/
def decodeUtf8Loop : Bytes → Nat → Int → List Nat → List Nat × PartialUtf8
  | [], value, nRemain, codePoints => (codePoints ++ [0], ⟨value, nRemain⟩)
  | byte :: bytes, value, nRemain, codePoints =>
    if 0 < nRemain then
      let value := value * 64 + (byte &&& 0x3F).toNat
      if nRemain = 1 then decodeUtf8Loop bytes value 0 (codePoints ++ [value])
      else decodeUtf8Loop bytes value (nRemain - 1) codePoints
    else
      let nRemain := utf8Length (byte >>> 4) - 1
      if nRemain < 0 then ([0], ⟨0, nRemain⟩)
      else
        let value := byte.toNat % 2 ^ (7 - nRemain.toNat)
        if nRemain = 0 then decodeUtf8Loop bytes value 0 (codePoints ++ [value])
        else decodeUtf8Loop bytes value nRemain codePoints

/-- `decode_utf8`: the code points with a terminating 0, and what is left of an incomplete
character. The bytes end at the first NUL. -/
def decodeUtf8 (src : Bytes) (start : PartialUtf8) : List Nat × PartialUtf8 :=
  match resumeUtf8 (src.takeWhile (· ≠ 0)) start.value start.nRemain with
  | none => ([0], ⟨0, -1⟩)
  | some (bytes, value, nRemain) =>
    decodeUtf8Loop bytes value nRemain (if 0 < start.nRemain ∧ nRemain = 0 then [value] else [])

/-- A single character or range of a character element. -/
inductive CharItem
  | any
  | range (low high : Nat)
deriving DecidableEq, Repr

namespace CharItem

def contains (chr : Nat) : CharItem → Bool
  | .any => true
  | .range low high => low ≤ chr && chr ≤ high

def meets (low high : Nat) : CharItem → Bool
  | .any => true
  | .range first last => first ≤ high && low ≤ last

def single (element : GrammarElement) : CharItem :=
  if element.type = .charAny then .any else .range element.value element.value

end CharItem

/-- The loop of `llama_grammar_match_char` and `llama_grammar_match_partial_char` over the
items of a character element; the count is the number of elements it goes through. -/
def charItems : List GrammarElement → List CharItem × Nat
  | [] => ([], 0)
  | [first] => ([.single first], 1)
  | first :: second :: rest =>
    if second.type = .charRngUpper then
      let item := CharItem.range first.value second.value
      match rest with
      | [] => ([item], 2)
      | third :: _ =>
        if third.type = .charAlt then
          let (items, used) := charItems rest
          (item :: items, used + 2)
        else ([item], 2)
    else if second.type = .charAlt then
      let (items, used) := charItems (second :: rest)
      (.single first :: items, used + 1)
    else ([.single first], 1)

/-- The starts of the alternates behind an index. -/
def laterAlternates : List GrammarElement → Nat → List Nat
  | [], _ => []
  | element :: rest, index =>
    match element.type with
    | .alt => (index + 1) :: laterAlternates rest (index + 1)
    | .endRule => []
    | _ => laterAlternates rest (index + 1)

def alternates (rule : GrammarRule) : List Nat := 0 :: laterAlternates rule 0

namespace GrammarRules

variable (rules : GrammarRules)

/-- The elements from a position on. -/
def tail (pos : GrammarPos) : List GrammarElement :=
  (rules.getD pos.rule []).drop pos.index

def element (pos : GrammarPos) : GrammarElement :=
  (rules.tail pos).headD ⟨.endRule, 0⟩

def type (pos : GrammarPos) : GreType := (rules.element pos).type

/-- A position is put on a stack only if an element of its sequence is left. -/
def push (pos : GrammarPos) (stack : GrammarStack) : GrammarStack :=
  if (rules.type pos).isEndOfSequence then stack else pos :: stack

def matchChar (pos : GrammarPos) (chr : Nat) : Outcome (Bool × GrammarPos) :=
  if (rules.type pos).isChar then
    let (items, used) := charItems (rules.tail pos)
    .ok (items.any (CharItem.contains chr) == (rules.type pos).isPositiveChar, pos.skip used)
  else .aborted

def matchPartialChar (pos : GrammarPos) (utf8 : PartialUtf8) : Outcome Bool :=
  if (rules.type pos).isChar then
    if utf8.nRemain < 0 ∨ (utf8.nRemain = 1 ∧ utf8.value < 2) then .ok false
    else
      let bits := 6 * utf8.nRemain.toNat
      let low := utf8.value <<< bits
      let high := low ||| (1 <<< bits - 1)
      let low := if low = 0 then
          if utf8.nRemain = 2 then 1 <<< 11 else if utf8.nRemain = 3 then 1 <<< 16 else low
        else low
      .ok ((charItems (rules.tail pos)).1.any (CharItem.meets low high) ==
        (rules.type pos).isPositiveChar)
  else .aborted

/-- Only called at a token element. -/
def matchToken (pos : GrammarPos) (token : Token) : Bool :=
  if rules.type pos = .token then (rules.element pos).value == (token % 4294967296).toNat
  else (rules.element pos).value != (token % 4294967296).toNat

/-- The stacks that `llama_grammar_advance_stack` pushes for a stack it has popped; an error
is `GGML_ABORT`. -/
def expandStack : GrammarStack → Except Unit (List GrammarStack)
  | [] => .ok []
  | pos :: base =>
    match rules.type pos with
    | .ruleRef =>
      let rule := (rules.element pos).value
      .ok ((alternates (rules.getD rule [])).map (fun start =>
        rules.push ⟨rule, start⟩ (rules.push (pos.skip 1) base)))
    | .char | .charNot | .charAny | .token | .tokenNot => .ok []
    | _ => .error ()

/-- A stack that needs no expansion: it is empty or has a terminal element on top. -/
def settled : GrammarStack → Bool
  | [] => true
  | pos :: _ => (rules.type pos).isChar || (rules.type pos).isToken

def addStack (stackSet : List GrammarStack) (stack : GrammarStack) : List GrammarStack :=
  if rules.settled stack && !stackSet.contains stack then stackSet ++ [stack] else stackSet

/-- More turns than the loop of `llama_grammar_advance_stack` can take without growing its
stacks for ever. -/
def expandFuel (stack : GrammarStack) : Nat :=
  let size := (rules.map List.length).sum
  (size + 1) ^ (stack.length + rules.length) * (size + 2) + 1

/-- A loop that never ends runs out of memory. -/
def advanceStack (stack : GrammarStack) (newStacks : List GrammarStack) :
    Outcome (List GrammarStack) :=
  match Lib.Worklist.run rules.expandStack rules.addStack (rules.expandFuel stack) [stack] []
      newStacks with
  | some (.ok newStacks) => .ok newStacks
  | some (.error ()) => .aborted
  | none => .threw "std::bad_alloc"

end GrammarRules

/-- A token on its way through a grammar: `offset` is how far `code_points` has moved. -/
structure GrammarCandidate where
  index : Nat
  codePoints : List Nat
  offset : Nat := 0
  partialUtf8 : PartialUtf8
  id : Token
deriving DecidableEq, Repr

namespace GrammarCandidate

def codePoint (tok : GrammarCandidate) : Nat := tok.codePoints.getD tok.offset 0

def forth (tok : GrammarCandidate) : GrammarCandidate := { tok with offset := tok.offset + 1 }

def back (tok : GrammarCandidate) : GrammarCandidate := { tok with offset := tok.offset - 1 }

end GrammarCandidate

namespace GrammarRules

variable (rules : GrammarRules)

/-- One turn of the loop of `llama_grammar_reject_candidates_for_stack` over the candidates:
those it rejects at `pos`, and those that go on behind it. -/
def sortCandidate (pos : GrammarPos) (sorted : List GrammarCandidate × List GrammarCandidate)
    (tok : GrammarCandidate) : Outcome (List GrammarCandidate × List GrammarCandidate) :=
  let (rejects, nexts) := sorted
  if tok.codePoint = 0 then
    if tok.partialUtf8.nRemain = 0 then .ok (rejects, nexts)
    else do
      if ← rules.matchPartialChar pos tok.partialUtf8 then .ok (rejects, nexts)
      else .ok (rejects ++ [tok], nexts)
  else do
    let (found, _) ← rules.matchChar pos tok.codePoint
    if found then .ok (rejects, nexts ++ [tok.forth]) else .ok (rejects ++ [tok], nexts)

/-- `deeper` is `llama_grammar_reject_candidates` for the candidates that go on. -/
def rejectCandidatesForStack
    (deeper : List GrammarStack → List GrammarCandidate → Outcome (List GrammarCandidate))
    (stack : GrammarStack) (candidates : List GrammarCandidate) : Outcome (List GrammarCandidate) :=
  match stack with
  | [] => .ok (candidates.filter (fun tok => tok.codePoint ≠ 0 || tok.partialUtf8.nRemain ≠ 0))
  | pos :: base =>
    if (rules.type pos).isToken then
      .ok (candidates.filter (fun tok =>
        if tok.codePoint = 0 then tok.partialUtf8.nRemain ≠ 0 else !rules.matchToken pos tok.id))
    else do
      let (rejects, nexts) ← candidates.foldlM (rules.sortCandidate pos) ([], [])
      let (_, posAfter) ← rules.matchChar pos 0
      let nextStacks ← rules.advanceStack (rules.push posAfter base) []
      let nextRejects ← deeper nextStacks nexts
      .ok (rejects ++ nextRejects.map GrammarCandidate.back)

/-- The depth bounds the number of code points that are left of any candidate. -/
def rejectCandidates (rules : GrammarRules) :
    Nat → List GrammarStack → List GrammarCandidate → Outcome (List GrammarCandidate)
  | depth, stackSet, candidates =>
    if stackSet.isEmpty then .aborted
    else if candidates.isEmpty then .ok []
    else
      match depth with
      | 0 => .ok []
      | depth + 1 =>
        stackSet.foldlM (fun rejects stack =>
          rules.rejectCandidatesForStack (rules.rejectCandidates depth) stack rejects) candidates

/-- `llama_grammar_accept_chr`. -/
def acceptChr (chr : Nat) (newStacks : List GrammarStack) :
    GrammarStack → Outcome (List GrammarStack)
  | [] => .ok newStacks
  | pos :: base =>
    if (rules.type pos).isToken then .ok newStacks
    else do
      let (found, posAfter) ← rules.matchChar pos chr
      if found then rules.advanceStack (rules.push posAfter base) newStacks else .ok newStacks

/-- The loop of `llama_grammar_accept_token` over the code points for one stack. -/
def acceptCodePoints (rules : GrammarRules) :
    List Nat → List GrammarStack → Outcome (List GrammarStack)
  | [], current => .ok current
  | chr :: codePoints, current => do
    let next ← current.foldlM (rules.acceptChr chr) []
    if next.isEmpty then .ok next else rules.acceptCodePoints codePoints next

/-- The turn of `llama_grammar_accept_token` for one stack. -/
def acceptTokenStack (token : Token) (codePoints : List Nat) (newStacks : List GrammarStack) :
    GrammarStack → Outcome (List GrammarStack)
  | [] => .ok newStacks
  | pos :: base =>
    if (rules.type pos).isToken then
      if rules.matchToken pos token then rules.advanceStack (rules.push (pos.skip 1) base) newStacks
      else .ok newStacks
    else do
      let survivors ← rules.acceptCodePoints codePoints [pos :: base]
      .ok (survivors.foldl (fun newStacks stack =>
        if newStacks.contains stack then newStacks else newStacks ++ [stack]) newStacks)

/-- Whether a rule has an empty alternate; `atStart` tells that an alternate begins here. -/
def emptyAlternate : Bool → List GrammarElement → Bool
  | _, [] => false
  | atStart, element :: rest =>
    if element.type.isEndOfSequence then atStart || emptyAlternate true rest
    else emptyAlternate false rest

/-- The marks of `llama_grammar_detect_left_recursion`. -/
structure RecursionMarks where
  visited : List Nat := []
  inProgress : List Nat := []
  mayBeEmpty : List Nat := []

/-- `llama_grammar_detect_left_recursion`. Each level of the recursion marks another rule, so
its depth is bounded by their number. -/
def detectLeftRecursion (rules : GrammarRules) : Nat → Nat → RecursionMarks → Bool × RecursionMarks
  | 0, _, marks => (true, marks)
  | depth + 1, ruleIndex, marks =>
    if marks.inProgress.contains ruleIndex then (true, marks)
    else
      let rule := rules.getD ruleIndex []
      let marks := { marks with
        inProgress := ruleIndex :: marks.inProgress
        mayBeEmpty := if emptyAlternate true rule then ruleIndex :: marks.mayBeEmpty
          else marks.mayBeEmpty }
      let (detected, _, marks) := rule.foldl (fun (detected, recurse, marks) element =>
        if detected then (true, recurse, marks)
        else if element.type = .ruleRef ∧ recurse then
          let (detected, marks) := rules.detectLeftRecursion depth element.value marks
          (detected, marks.mayBeEmpty.contains element.value, marks)
        else (false, element.type.isEndOfSequence, marks)) (false, true, marks)
      if detected then (true, marks)
      else (false, { marks with
        visited := ruleIndex :: marks.visited
        inProgress := marks.inProgress.erase ruleIndex })

/-- The check of `llama_grammar_init_impl`. -/
def leftRecursive : Bool :=
  ((List.range rules.length).foldl (fun (detected, marks) ruleIndex =>
    if detected ∨ marks.visited.contains ruleIndex then (detected, marks)
    else rules.detectLeftRecursion (rules.length + 1) ruleIndex marks)
    (false, ({} : RecursionMarks))).1

/-- What may stand behind what in a rule: the parts of a character element follow it. -/
def follows : GreType → GreType → Bool
  | .endRule, _ => false
  | previous, .charRngUpper => previous == .char || previous == .charNot || previous == .charAlt
  | previous, .charAlt =>
    previous == .char || previous == .charNot || previous == .charAlt || previous == .charRngUpper
  | _, _ => true

def shaped : GreType → List GrammarElement → Bool
  | previous, [] => previous == .endRule
  | previous, element :: rest => follows previous element.type && shaped element.type rest

end GrammarRules

/-- Rules as the parser returns them: every rule ends with its only `END`, every reference
is defined, and the start symbol exists. -/
structure RuleSet where
  rules : GrammarRules
  start : Nat
  shaped : ∀ rule ∈ rules, GrammarRules.shaped .alt rule = true
  defined : ∀ rule ∈ rules, ∀ element ∈ rule, element.type = .ruleRef → element.value < rules.length
  start_lt : start < rules.length

structure Grammar where
  rules : GrammarRules
  stackSet : List GrammarStack
  partialUtf8 : PartialUtf8 := {}

namespace Grammar

/-- `llama_grammar_init_impl` behind the parser. It aborts for no rule set. -/
def init (ruleSet : RuleSet) : Except String Grammar :=
  if ruleSet.rules.leftRecursive then
    .error "invalid grammar (see the server log for the parse error)"
  else
    let starts := alternates (ruleSet.rules.getD ruleSet.start [])
    match starts.foldlM (fun stackSet start => ruleSet.rules.advanceStack
        (ruleSet.rules.push ⟨ruleSet.start, start⟩ []) stackSet) [] with
    | .ok stackSet => .ok { rules := ruleSet.rules, stackSet := stackSet }
    | .threw message => .error message
    | .aborted => .error "fatal error"

/-- `llama_grammar_accept`. -/
def acceptCodePoint (grammar : Grammar) (chr : Nat) : Outcome Grammar := do
  let stackSet ← grammar.stackSet.foldlM (grammar.rules.acceptChr chr) []
  .ok { grammar with stackSet := stackSet }

section

variable (isEog : Token → Bool) (piece : Token → Bytes) (grammar : Grammar)

/-- The code points of a token, behind the characters read so far. -/
def decode (token : Token) : List Nat × PartialUtf8 :=
  decodeUtf8 (piece token) grammar.partialUtf8

def candidate (index : Nat) (token : Token) : GrammarCandidate where
  index := index
  codePoints := (grammar.decode piece token).1
  partialUtf8 := (grammar.decode piece token).2
  id := token

/-- An empty stack: the text may end here. -/
def allowsEog : Bool := grammar.stackSet.contains []

/-- Tokens without text are never accepted. -/
def hasText (token : Token) : Bool := (piece token).headD 0 ≠ 0

def rejects (candidates : List GrammarCandidate) : Outcome (List GrammarCandidate) :=
  let depth := (candidates.map (fun tok => tok.codePoints.length)).foldl max 0
  grammar.rules.rejectCandidates depth grammar.stackSet candidates

/-- `llama_grammar_would_accept`. -/
def wouldAccept (token : Token) : Outcome Bool :=
  if isEog token then .ok grammar.allowsEog
  else if !hasText piece token then .ok false
  else do
    let rejected ← grammar.rejects [grammar.candidate piece 0 token]
    .ok rejected.isEmpty

/-- `llama_grammar_apply_impl`: the logits of tokens that cannot come next are masked. -/
def apply {Logit : Type} [DecidableEq Logit] (negInf : Logit) (logits : List Logit) :
    Outcome (List Logit) :=
  let ids := (List.range logits.length).filter (fun id => logits.getD id negInf ≠ negInf)
  let texts := ids.filter (fun (id : Nat) => !isEog id && hasText piece id)
  let masked := ids.filter (fun (id : Nat) =>
    if isEog id then !grammar.allowsEog else !hasText piece id)
  do
    let rejected ← grammar.rejects (texts.map (fun (id : Nat) => grammar.candidate piece id id))
    .ok ((masked ++ rejected.map GrammarCandidate.index).foldl
      (fun logits id => logits.set id negInf) logits)

/-- The message of `llama_grammar_accept_token`, with the bytes of the piece as characters. -/
def emptyStackMessage (token : Token) : String :=
  let text := String.ofList ((piece token).map (fun byte => Char.ofNat byte.toNat))
  s!"Unexpected empty grammar stack after accepting piece: {text} ({token})"

/-- `llama_grammar_accept_impl` with `llama_grammar_accept_token`. -/
def accept (token : Token) : Outcome Grammar :=
  if isEog token then
    if grammar.allowsEog then .ok grammar else .aborted
  else
    let (codePoints, partialUtf8) := grammar.decode piece token
    do
      let newStacks ← grammar.stackSet.foldlM
        (grammar.rules.acceptTokenStack token codePoints.dropLast) []
      if newStacks.isEmpty then .threw (emptyStackMessage piece token)
      else .ok { grammar with stackSet := newStacks, partialUtf8 := partialUtf8 }

end

end Grammar

end Iian
