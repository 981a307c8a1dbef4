import Mathlib.Data.List.Basic

/- How a POSIX shell splits a command line into the words of one simple command: quoting, blanks and
quote removal. A text on which the shell would do more than that (an operator, a comment, an
expansion, a pattern, an assignment, a reserved word) is no such command. -/
namespace Iian.Lib.Shell

open List

def isBlank (byte : UInt8) : Bool := byte == 0x20 || byte == 0x09

/-- `|`, `&`, `;`, `<`, `>`, `(`, `)` and the newline, which are operators. -/
def isOperator (byte : UInt8) : Bool :=
  byte == 0x7C || byte == 0x26 || byte == 0x3B || byte == 0x3C || byte == 0x3E || byte == 0x28 ||
    byte == 0x29 || byte == 0x0A

/-- `$` and the grave accent, which start an expansion. -/
def isExpansion (byte : UInt8) : Bool := byte == 0x24 || byte == 0x60

/-- `*`, `?` and `[`, which make a word a pattern. -/
def isPattern (byte : UInt8) : Bool := byte == 0x2A || byte == 0x3F || byte == 0x5B

/-- `#` and `~`, which mean something at the start of a word. -/
def isOpening (byte : UInt8) : Bool := byte == 0x23 || byte == 0x7E

/-- What a backslash escapes in double quotes. -/
def isEscapable (byte : UInt8) : Bool := isExpansion byte || byte == 0x22 || byte == 0x5C

inductive Quoting
  | none
  | escaped
  | single
  | double
  | doubleEscaped
deriving DecidableEq, Repr

/-- The words that have ended, and what has been read of the next one if it has begun. -/
structure Reader where
  quoting : Quoting := .none
  word : Option (List UInt8) := none
  words : List (List UInt8) := []
deriving DecidableEq, Repr

namespace Reader

def add (reader : Reader) (text : List UInt8) : Reader :=
  { reader with word := some (reader.word.getD [] ++ text) }

def quote (reader : Reader) (quoting : Quoting) : Reader := { reader with quoting := quoting }

def endWord (reader : Reader) : Reader :=
  { reader with words := reader.words ++ reader.word.toList, word := none }

def step (reader : Reader) (byte : UInt8) : Option Reader :=
  match reader.quoting with
  | .none =>
    if isBlank byte then some reader.endWord
    else if byte = 0x5C then some (reader.quote .escaped)
    else if byte = 0x27 then some ((reader.add []).quote .single)
    else if byte = 0x22 then some ((reader.add []).quote .double)
    else if isOperator byte || isExpansion byte || isPattern byte then none
    else if isOpening byte && reader.word.isNone then none
    else some (reader.add [byte])
  | .escaped => some (if byte = 0x0A then reader.quote .none else (reader.add [byte]).quote .none)
  | .single => some (if byte = 0x27 then reader.quote .none else reader.add [byte])
  | .double =>
    if byte = 0x22 then some (reader.quote .none)
    else if byte = 0x5C then some (reader.quote .doubleEscaped)
    else if isExpansion byte then none
    else some (reader.add [byte])
  | .doubleEscaped =>
    some (if byte = 0x0A then reader.quote .double
      else (reader.add (if isEscapable byte then [byte] else [0x5C, byte])).quote .double)

def read (reader : Reader) (text : List UInt8) : Option Reader := text.foldlM step reader

end Reader

/-- The reserved words, which start something else than a simple command. -/
def reserved : List String :=
  ["!", "\x7b", "\x7d", "case", "do", "done", "elif", "else", "esac", "fi", "for", "if", "in", "then",
    "until", "while"]

def isName (word : List UInt8) : Bool :=
  !(reserved.map fun text => text.toList.map fun char => UInt8.ofNat char.toNat).contains word &&
    !word.contains 0x3D

/-- The argument vector, if the text is one simple command. -/
def argv (text : List UInt8) : Option (List (List UInt8)) := do
  let reader ← ({} : Reader).read text
  let words := reader.endWord.words
  if reader.quoting = .none && words.head?.any isName then some words else none

/-- Bytes that stand for themselves outside quotes. -/
def isOrdinary (byte : UInt8) : Bool :=
  !(isBlank byte || byte == 0x5C || byte == 0x27 || byte == 0x22 || isOperator byte || isExpansion byte ||
    isPattern byte || isOpening byte)

namespace Reader

variable {reader next : Reader} {text more : List UInt8} {byte : UInt8}

theorem read_append (reader : Reader) (text more : List UInt8) :
    reader.read (text ++ more) = (reader.read text).bind (·.read more) :=
  foldlM_append

theorem read_cons (reader : Reader) (byte : UInt8) (text : List UInt8) :
    reader.read (byte :: text) = (reader.step byte).bind (·.read text) := rfl

theorem step_ordinary (plain : reader.quoting = .none) (ordinary : isOrdinary byte = true) :
    reader.step byte = some (reader.add [byte]) := by
  simp only [isOrdinary, Bool.not_eq_true', Bool.or_eq_false_iff, beq_eq_false_iff_ne] at ordinary
  obtain ⟨⟨⟨⟨⟨⟨⟨blank, backslash⟩, quote⟩, double⟩, operator⟩, expansion⟩, pattern⟩, opening⟩ := ordinary
  simp [step, plain, blank, backslash, quote, double, operator, expansion, pattern, opening]

theorem add_add (reader : Reader) (text more : List UInt8) :
    (reader.add text).add more = reader.add (text ++ more) := by
  simp [add]

/-- Ordinary bytes in a word that has begun. -/
theorem read_ordinary (plain : reader.quoting = .none) (ordinary : ∀ byte ∈ text, isOrdinary byte = true)
    (front : List UInt8) : (reader.add front).read text = some (reader.add (front ++ text)) := by
  induction text generalizing front with
  | nil =>
    rw [append_nil]
    rfl
  | cons byte text ih =>
    have turn : (reader.add front).step byte = some (reader.add (front ++ [byte])) := by
      rw [← add_add]
      exact step_ordinary plain (ordinary byte mem_cons_self)
    rw [read_cons, turn, Option.bind_some,
      ih (fun byte member => ordinary byte (mem_cons_of_mem _ member)), append_assoc]
    rfl

/-- A word of ordinary bytes and a blank. -/
theorem read_word (plain : reader.quoting = .none) (fresh : reader.word = none) (filled : text ≠ [])
    (ordinary : ∀ byte ∈ text, isOrdinary byte = true) :
    reader.read (text ++ [0x20]) = some { reader with words := reader.words ++ [text] } := by
  obtain ⟨byte, text, rfl⟩ := exists_cons_of_ne_nil filled
  rw [read_append, read_cons, step_ordinary plain (ordinary byte mem_cons_self), Option.bind_some,
    read_ordinary plain (fun byte member => ordinary byte (mem_cons_of_mem _ member)), Option.bind_some,
    read_cons, step]
  have quoting : (reader.add ([byte] ++ text)).quoting = .none := plain
  rw [quoting]
  simp [isBlank, endWord, add, read, fresh]

/-- Some words of ordinary bytes, each with a blank behind it. -/
theorem read_words {list : List (List UInt8)} (plain : reader.quoting = .none) (fresh : reader.word = none)
    (ordinary : ∀ text ∈ list, text ≠ [] ∧ ∀ byte ∈ text, isOrdinary byte = true) :
    reader.read (list.flatMap (· ++ [0x20])) = some { reader with words := reader.words ++ list } := by
  induction list generalizing reader with
  | nil =>
    rw [append_nil]
    rfl
  | cons text list ih =>
    obtain ⟨filled, bytes⟩ := ordinary text mem_cons_self
    have later := @ih { reader with words := reader.words ++ [text] } plain fresh
      fun text member => ordinary text (mem_cons_of_mem _ member)
    rw [flatMap_cons, read_append, read_word plain fresh filled bytes, Option.bind_some, later,
      append_assoc]
    rfl

/-- A quote opens and begins the word. -/
theorem read_open (plain : reader.quoting = .none) (text : List UInt8) :
    reader.read (0x27 :: text) = ((reader.add []).quote .single).read text := by
  rw [read_cons, step, plain]
  rfl

section

variable (quoted : reader.quoting = .single)

include quoted

/-- A quoted byte that is not the quote. -/
theorem read_single (other : byte ≠ 0x27) (text : List UInt8) :
    reader.read (byte :: text) = (reader.add [byte]).read text := by
  rw [read_cons, step, quoted]
  dsimp only
  rw [if_neg other]
  rfl

/-- The quotes end, a quote follows that is escaped, and they go on. -/
theorem read_quote (begun : reader.word ≠ none) (text : List UInt8) :
    reader.read (0x27 :: 0x5C :: 0x27 :: 0x27 :: text) = (reader.add [0x27]).read text := by
  obtain ⟨quoting, word, words⟩ := reader
  obtain ⟨word, rfl⟩ := Option.ne_none_iff_exists'.mp begun
  cases quoted
  simp [read_cons, step, quote, add, isBlank]

theorem read_close (text : List UInt8) :
    reader.read (0x27 :: text) = (reader.quote .none).read text := by
  rw [read_cons, step, quoted]
  rfl

end

theorem read_blank (plain : reader.quoting = .none) (text : List UInt8) :
    reader.read (0x20 :: text) = reader.endWord.read text := by
  rw [read_cons, step, plain]
  rfl

end Reader

end Iian.Lib.Shell
