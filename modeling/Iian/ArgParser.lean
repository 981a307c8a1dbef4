import Iian.Lib.Json
import Iian.Sampling

/- The command-line parser, and which short options reach the flag they were registered for. What
only `print_help` reads (help texts, groups, defaults), and the environment and config layers, are
left out. -/
namespace Iian.Cli

open Lib.Json (isDigit)

structure Flag where
  name : Bytes := []
  shortName : Bytes := []
  valueName : Bytes := []
  repeatable : Bool := false
deriving DecidableEq

def Flag.isBool (f : Flag) : Bool := f.valueName.isEmpty

/-- One comma-separated part of the spec given to `add`. -/
def Flag.readPart (f : Flag) : Bytes → Flag
  | 0x2D :: 0x2D :: name => { f with name }
  | 0x2D :: shortName => { f with shortName }
  | _ => f

structure Positional where
  name : Bytes
  required : Bool
  rest : Bool := false

structure ArgParser where
  prog : Bytes
  usage : Bytes
  flags : List Flag := []
  posSpec : List Positional := []
  /-- The map `cli_values_`. -/
  cliValues : Bytes → Option (List Bytes) := fun _ => none
  positionals : List Bytes := []
  raw : List Bytes := []

/-- What a command registers before it parses. -/
inductive Declaration
  | add (spec valueName : Bytes)
  | addRepeatable (spec valueName : Bytes)
  | positional (name : Bytes) (required : Bool)
  | rest (name : Bytes)

/-- The outcome of matching one argument against the flags. -/
inductive Reading
  | positional
  | separator
  | unknown (message : Bytes)
  | negated (f : Flag)
  | option (f : Flag) (value : Option Bytes)

/-- One row of the table of `levenshtein`; `left` is the cell before the ones still to fill. -/
def levenshteinRow (char : UInt8) : Bytes → List Nat → Nat → List Nat
  | other :: b, diagonal :: above :: prev, left =>
    let cell := min (min (above + 1) (left + 1)) (diagonal + if char = other then 0 else 1)
    cell :: levenshteinRow char b (above :: prev) cell
  | _, _, _ => []

def levenshtein (a b : Bytes) : Nat :=
  ((a.zipIdx 1).foldl (fun prev (char, i) => i :: levenshteinRow char b prev i)
    (List.range (b.length + 1))).getD b.length 0

namespace ArgParser

variable (p : ArgParser)

def add (spec valueName : Bytes) (repeatable : Bool) : ArgParser :=
  { p with flags := p.flags ++
      [(spec.splitOn 0x2C).foldl Flag.readPart { valueName, repeatable }] }

def new (prog usage : Bytes) : ArgParser :=
  { prog, usage : ArgParser }.add (ascii "-h,--help") [] false

def declare : Declaration → ArgParser
  | .add spec valueName => p.add spec valueName false
  | .addRepeatable spec valueName => p.add spec valueName true
  | .positional name required => { p with posSpec := p.posSpec ++ [{ name, required }] }
  | .rest name => { p with posSpec := p.posSpec ++ [{ name, required := false, rest := true }] }

def build (prog usage : Bytes) (declarations : List Declaration) : ArgParser :=
  declarations.foldl declare (new prog usage)

def find (name : Bytes) : Option Flag := p.flags.find? (·.name = name)

def suggest (bad : Bytes) : Bytes :=
  let nearest := p.flags.foldl (fun (best, least) f =>
    let distance := levenshtein bad f.name
    if distance < least then (f.name, distance) else (best, least)) ([], 1000)
  if nearest.2 ≤ max 2 (bad.length / 3) then nearest.1 else []

def runHelp : Bytes :=
  ascii "Run '" ++ p.prog ++ ascii " --help' for the list of options.\n"

def usageLine : Bytes := p.prog ++ ascii " " ++ p.usage

def readLong (text : Bytes) : Reading :=
  let name := text.takeWhile (· != 0x3D)
  let value := (text.dropWhile (· != 0x3D)).tail?
  let unknown :=
    let s := p.suggest name
    .unknown (p.prog ++ ascii ": unknown option '--" ++ name ++ ascii "'" ++
      (if s = [] then [] else ascii " (did you mean '--" ++ s ++ ascii "'?)") ++ ascii "\n" ++
      p.runHelp)
  match p.find name with
  | some f => .option f value
  | none =>
    if (ascii "no-").isPrefixOf name then
      match p.find (name.drop 3) with
      | some f => if f.isBool then .negated f else unknown
      | none => unknown
    else unknown

/-- A short name that starts `text`; a switch takes no attached value. -/
def matchesShort (text : Bytes) (f : Flag) : Bool :=
  f.shortName ≠ [] ∧ f.shortName <+: text ∧ (text.length = f.shortName.length ∨ f.isBool = false)

def readShort (text : Bytes) : Reading :=
  match p.flags.find? (matchesShort text) with
  | none =>
    .unknown (p.prog ++ ascii ": unknown option '-" ++ text ++ ascii "'\n" ++ p.runHelp)
  | some f =>
    let value := text.drop f.shortName.length
    .option f (if value = [] then none
      else some (if value.head? = some 0x3D then value.tail else value))

def read (onlyPositionals : Bool) (a : Bytes) : Reading :=
  if onlyPositionals ∨ a = ascii "-" ∨ a = [] ∨ a.head? ≠ some 0x2D ∨
      ((a.tail.head?.any isDigit) ∧ p.find a.tail = none) then .positional
  else if a = ascii "--" then .separator
  else if ascii "--" <+: a then p.readLong (a.drop 2)
  else p.readShort (a.drop 1)

def set (name : Bytes) (values : List Bytes) : ArgParser :=
  { p with cliValues := Function.update p.cliValues name (some values) }

def give (f : Flag) (value : Bytes) : ArgParser :=
  p.set f.name (if f.repeatable then (p.cliValues f.name).getD [] ++ [value] else [value])

/-- The checks after the loop of `parse`. -/
def checkPositionals : Nat × Bytes :=
  let usage := ascii "\n\nUsage: " ++ p.usageLine ++ ascii "\n"
  if p.positionals.length < p.posSpec.countP (·.required) then
    (1, p.prog ++ ascii ": missing required argument <" ++
      ((p.posSpec[p.positionals.length]?).elim [] (·.name)) ++ ascii ">" ++ usage)
  else if ¬ p.posSpec.getLast?.any (·.rest) ∧ p.posSpec.length < p.positionals.length then
    (1, p.prog ++ ascii ": unexpected argument '" ++
      ((p.positionals[p.posSpec.length]?).getD []) ++ ascii "'" ++ usage)
  else (0, [])

/-- The loop of `parse`: the parser it leaves, the code it returns and what goes to `stderr`. -/
def parseArgs (p : ArgParser) (onlyPositionals : Bool) : List Bytes → ArgParser × Nat × Bytes
  | [] => (p, p.checkPositionals)
  | a :: args =>
    match p.read onlyPositionals a with
    | .positional => parseArgs { p with positionals := p.positionals ++ [a] } onlyPositionals args
    | .separator => parseArgs p true args
    | .unknown message => (p, 1, message)
    | .negated f => parseArgs (p.set f.name [ascii "false"]) onlyPositionals args
    | .option f value =>
      if f.name = ascii "help" then (p, 2, [])
      else if f.isBool then
        parseArgs (p.set f.name [value.getD (ascii "true")]) onlyPositionals args
      else
        match value, args with
        | some value, args => parseArgs (p.give f value) onlyPositionals args
        | none, value :: args => parseArgs (p.give f value) onlyPositionals args
        | none, [] => (p, 1, p.prog ++ ascii ": option '--" ++ f.name ++
            ascii "' requires a value <" ++ f.valueName ++ ascii ">\n")

def parse (args : List Bytes) : ArgParser × Nat × Bytes :=
  { p with raw := args }.parseArgs false args

section Build

/-- Nothing is parsed yet, and no short name starts with a dash. -/
structure Fresh (p : ArgParser) : Prop where
  values : p.cliValues = fun _ => none
  positionals : p.positionals = []
  noDash : ∀ f ∈ p.flags, f.shortName.head? ≠ some 0x2D

theorem readPart_noDash (f : Flag) (part : Bytes) (noDash : f.shortName.head? ≠ some 0x2D) :
    (f.readPart part).shortName.head? ≠ some 0x2D := by
  unfold Flag.readPart
  split
  · exact noDash
  · rename_i shortName single
    intro dash
    obtain ⟨rest, same⟩ := List.head?_eq_some_iff.mp dash
    exact single rest same
  · exact noDash

theorem readParts_noDash (f : Flag) (parts : List Bytes)
    (noDash : f.shortName.head? ≠ some 0x2D) :
    (parts.foldl Flag.readPart f).shortName.head? ≠ some 0x2D :=
  List.foldlRecOn (motive := fun f => f.shortName.head? ≠ some 0x2D) parts Flag.readPart noDash
    fun f noDash part _ => readPart_noDash f part noDash

theorem Fresh.add {p : ArgParser} (fresh : p.Fresh) (spec valueName : Bytes)
    (repeatable : Bool) : (p.add spec valueName repeatable).Fresh := by
  refine ⟨fresh.values, fresh.positionals, List.forall_mem_append.mpr ⟨fresh.noDash, ?_⟩⟩
  rw [List.forall_mem_singleton]
  exact readParts_noDash _ _ (by simp)

theorem Fresh.declare {p : ArgParser} (fresh : p.Fresh) (declaration : Declaration) :
    (p.declare declaration).Fresh := by
  cases declaration with
  | add spec valueName => exact fresh.add ..
  | addRepeatable spec valueName => exact fresh.add ..
  | positional name required => exact ⟨fresh.values, fresh.positionals, fresh.noDash⟩
  | rest name => exact ⟨fresh.values, fresh.positionals, fresh.noDash⟩

theorem build_fresh (prog usage : Bytes) (declarations : List Declaration) :
    (build prog usage declarations).Fresh := by
  have start : (new prog usage).Fresh := Fresh.add ⟨rfl, rfl, by simp⟩ ..
  exact List.foldlRecOn declarations declare start fun p fresh d _ => fresh.declare d

end Build

section ShortOptions

/-- No two flags share a short name. -/
def DistinctShorts (flags : List Flag) : Prop :=
  ∀ f ∈ flags, ∀ g ∈ flags, f.shortName ≠ [] → f.shortName = g.shortName → f = g

/-- The arguments `-s value`, or `-s` for a switch. -/
def shortArgs (f : Flag) (value : Bytes) : List Bytes :=
  (0x2D :: f.shortName) :: if f.isBool then [] else [value]

/-- Between the two states the flag `f` was set, and nothing else. -/
def Sets (f : Flag) (value : Bytes) (before after : ArgParser) : Prop :=
  after.cliValues f.name = some [if f.isBool then ascii "true" else value] ∧
    (∀ g ∈ before.flags, g ≠ f → after.cliValues g.name = before.cliValues g.name) ∧
    after.positionals = before.positionals

structure Reachable (flags : List Flag) (f : Flag) : Prop where
  notNumber : f.shortName.head?.any isDigit → ∃ g ∈ flags, g.name = f.shortName
  notHelp : f.name ≠ ascii "help"
  ownName : ∀ g ∈ flags, g ≠ f → g.name ≠ f.name
  /-- No flag registered before takes what follows its own short name as a value. -/
  first : ∀ g ∈ flags.takeWhile (· ≠ f),
    ¬ (g.isBool = false ∧ g.shortName ≠ [] ∧ g.shortName <+: f.shortName)

variable {p : ArgParser} {f g : Flag} {value : Bytes}

/-- The search over the flags stops at `f`, or at a match registered before it. -/
theorem find?_match {flags : List Flag} {accepts : Flag → Bool} (member : f ∈ flags)
    (own : accepts f) :
    (flags.find? accepts = some f ∧ ∀ g ∈ flags.takeWhile (· ≠ f), accepts g = false) ∨
      ∃ g ∈ flags.takeWhile (· ≠ f), accepts g ∧ flags.find? accepts = some g := by
  induction flags with
  | nil => cases member
  | cons head tail ih =>
    by_cases same : head = f
    · subst same
      exact .inl ⟨List.find?_cons_of_pos own, by simp⟩
    rw [List.takeWhile_cons_of_pos (by simpa using same)]
    cases decision : accepts head with
    | true =>
      exact .inr ⟨head, List.mem_cons_self, decision, List.find?_cons_of_pos decision⟩
    | false =>
      rw [List.find?_cons_of_neg (by simp [decision])]
      rcases ih (List.mem_of_ne_of_mem (Ne.symm same) member) with
        ⟨found, none⟩ | ⟨g, before, accepted, found⟩
      · exact .inl ⟨found, List.forall_mem_cons.mpr ⟨decision, none⟩⟩
      · exact .inr ⟨g, List.mem_cons_of_mem _ before, accepted, found⟩

/-- An argument `-s` is a number, unless a flag's long name is that number, or a short option. -/
theorem read_short (short : f.shortName ≠ []) (noDash : f.shortName.head? ≠ some 0x2D) :
    p.read false (0x2D :: f.shortName) =
      if f.shortName.head?.any isDigit ∧ p.find f.shortName = none then .positional
      else p.readShort f.shortName := by
  obtain ⟨char, rest, same⟩ := List.exists_cons_of_ne_nil short
  rw [same] at noDash ⊢
  have other : char ≠ 0x2D := by simpa using noDash
  simp only [read, ascii]
  simp [other, other.symm]
  congr

theorem readShort_own (found : p.flags.find? (matchesShort f.shortName) = some f) :
    p.readShort f.shortName = .option f none := by
  simp [readShort, found]

/-- A flag found in place of `f` has a shorter name, and takes the rest of the argument. -/
theorem readShort_other (accepted : matchesShort f.shortName g)
    (other : g.shortName ≠ f.shortName)
    (found : p.flags.find? (matchesShort f.shortName) = some g) :
    (g.isBool = false ∧ g.shortName ≠ [] ∧ g.shortName <+: f.shortName) ∧
      ∃ attached, p.readShort f.shortName = .option g (some attached) := by
  simp only [matchesShort, decide_eq_true_eq] at accepted
  obtain ⟨named, starts, whole⟩ := accepted
  have longer : f.shortName.length ≠ g.shortName.length := fun same =>
    other (starts.eq_of_length same.symm)
  have left : f.shortName.drop g.shortName.length ≠ [] := by
    rw [ne_eq, List.drop_eq_nil_iff]
    have bound := starts.length_le
    omega
  refine ⟨⟨whole.resolve_left longer, named, starts⟩, ?_⟩
  simp [readShort, found, left]

/-- The value left over when the option was read without it sets no flag. -/
theorem parseArgs_left (p : ArgParser) (f : Flag) (plain : value.head? ≠ some 0x2D) :
    (p.parseArgs false (if f.isBool then [] else [value])).1.cliValues = p.cliValues ∧
      p.positionals <+: (p.parseArgs false (if f.isBool then [] else [value])).1.positionals := by
  cases f.isBool with
  | true => exact ⟨rfl, List.prefix_rfl⟩
  | false =>
    have pushed : p.read false value = .positional := if_pos (by simp [plain])
    simp [parseArgs, pushed]

/-- Once it is read as its own flag, the option sets it. -/
theorem parseArgs_own (reading : p.read false (0x2D :: f.shortName) = .option f none)
    (notHelp : f.name ≠ ascii "help") (fresh : p.Fresh) :
    (p.parseArgs false (shortArgs f value)).1 =
      p.set f.name [if f.isBool then ascii "true" else value] := by
  cases switch : f.isBool with
  | true => simp [shortArgs, parseArgs, reading, notHelp, switch]
  | false => simp [shortArgs, parseArgs, reading, notHelp, switch, give, fresh.values]

theorem matchesShort_eq_false (named : matchesShort f.shortName g = false) :
    ¬ (g.isBool = false ∧ g.shortName ≠ [] ∧ g.shortName <+: f.shortName) := by
  rintro ⟨valued, short, starts⟩
  simp [matchesShort, valued, short, starts] at named

theorem find_eq_none : p.find f.shortName = none ↔ ¬ ∃ g ∈ p.flags, g.name = f.shortName := by
  simp [find]

/-- The argument is taken for a number and becomes a positional. -/
theorem not_sets_number (reading : p.read false (0x2D :: f.shortName) = .positional)
    (plain : value.head? ≠ some 0x2D) :
    ¬ Sets f value p (p.parseArgs false (shortArgs f value)).1 := by
  rintro ⟨-, -, positionals⟩
  simp only [shortArgs, parseArgs, reading] at positionals
  have kept := (parseArgs_left _ f plain).2.length_le.trans_eq (congrArg List.length positionals)
  exact absurd kept (by simp)

theorem not_sets_help {attached : Option Bytes} (fresh : p.Fresh)
    (reading : p.read false (0x2D :: f.shortName) = .option g attached)
    (help : g.name = ascii "help") :
    ¬ Sets f value p (p.parseArgs false (shortArgs f value)).1 := by
  rintro ⟨given, -⟩
  simp [shortArgs, parseArgs, reading, help, fresh.values] at given

/-- Another flag takes the rest of the argument as its value. -/
theorem not_sets_other {attached : Bytes} (fresh : p.Fresh) (plain : value.head? ≠ some 0x2D)
    (reading : p.read false (0x2D :: f.shortName) = .option g (some attached))
    (valued : g.isBool = false) (here : g ∈ p.flags) (other : g ≠ f) :
    ¬ Sets f value p (p.parseArgs false (shortArgs f value)).1 := by
  by_cases help : g.name = ascii "help"
  · exact not_sets_help fresh reading help
  rintro ⟨-, others, -⟩
  have kept := others g here other
  simp only [shortArgs, parseArgs, reading, if_neg help, valued, Bool.false_eq_true,
    if_false] at kept
  rw [(parseArgs_left _ f plain).1, fresh.values] at kept
  simp [give, set] at kept

theorem parseArgs_sets_iff (fresh : p.Fresh) (distinct : DistinctShorts p.flags)
    (member : f ∈ p.flags) (short : f.shortName ≠ []) (plain : value.head? ≠ some 0x2D) :
    Sets f value p (p.parseArgs false (shortArgs f value)).1 ↔ Reachable p.flags f := by
  have reading := read_short (p := p) short (fresh.noDash f member)
  by_cases number : f.shortName.head?.any isDigit ∧ p.find f.shortName = none
  · rw [if_pos number] at reading
    exact iff_of_false (not_sets_number reading plain)
      fun reachable => find_eq_none.mp number.2 (reachable.notNumber number.1)
  rw [if_neg number] at reading
  have own : matchesShort f.shortName f := by simp [matchesShort, short]
  rcases find?_match member own with ⟨found, before⟩ | ⟨g, before, accepted, found⟩
  · rw [readShort_own found] at reading
    by_cases help : f.name = ascii "help"
    · exact iff_of_false (not_sets_help fresh reading help)
        fun reachable => reachable.notHelp help
    rw [parseArgs_own reading help fresh]
    constructor
    · rintro ⟨-, others, -⟩
      refine ⟨fun digit => ?_, help, fun g here other same => ?_,
        fun g here => matchesShort_eq_false (before g here)⟩
      · exact not_not.mp fun absent => number ⟨digit, find_eq_none.mpr absent⟩
      · have kept := others g here other
        simp [set, same, fresh.values] at kept
    · intro reachable
      refine ⟨Function.update_self .., fun g here other => ?_, rfl⟩
      exact Function.update_of_ne (reachable.ownName g here other) ..
  · have here : g ∈ p.flags := List.takeWhile_subset _ before
    have other : g ≠ f := by simpa using List.mem_takeWhile_imp before
    obtain ⟨takes, attached, read⟩ := readShort_other accepted
      (fun same => other (distinct g here f member (same ▸ short) same)) found
    exact iff_of_false (not_sets_other fresh plain (reading.trans read) takes.1 here other)
      fun reachable => reachable.first g before takes

end ShortOptions

/-- A short option reaches its own flag exactly when it is not read as a number, as `help` or as an
earlier flag with a value attached, and the flag shares its long name with no other. -/
theorem shortOption_sets_iff (prog usage : Bytes) (declarations : List Declaration) (f : Flag)
    (value : Bytes) (distinct : DistinctShorts (build prog usage declarations).flags)
    (member : f ∈ (build prog usage declarations).flags) (short : f.shortName ≠ [])
    (plain : value.head? ≠ some 0x2D) :
    Sets f value (build prog usage declarations)
        ((build prog usage declarations).parse (shortArgs f value)).1 ↔
      Reachable (build prog usage declarations).flags f := by
  have fresh := build_fresh prog usage declarations
  exact parseArgs_sets_iff (p := { build prog usage declarations with raw := shortArgs f value })
    ⟨fresh.values, fresh.positionals, fresh.noDash⟩ distinct member short plain

/-- `add_model_flags`. -/
def addModelFlags : List Declaration :=
  [.add (ascii "-t,--threads") (ascii "N"), .add (ascii "--threads-batch") (ascii "N"),
    .add (ascii "-ngl,--n-gpu-layers") (ascii "N"), .addRepeatable (ascii "--device") (ascii "NAME"),
    .add (ascii "-ts,--tensor-split") (ascii "LIST"), .add (ascii "--no-mmap") [],
    .add (ascii "--mlock") [], .add (ascii "--no-repack") []]

def modelParser : ArgParser := build (ascii "iian") (ascii "[options]") addModelFlags

theorem modelParser_distinct : DistinctShorts modelParser.flags := by
  unfold DistinctShorts
  decide +kernel

/-- `-ts 3,1` gives `-t` the value `s` and leaves `3,1` as an unexpected argument. -/
theorem tensorSplit_sets_threads :
    let f : Flag :=
      { name := ascii "tensor-split", shortName := ascii "ts", valueName := ascii "LIST" }
    let after := (modelParser.parse (shortArgs f (ascii "3,1"))).1
    f ∈ modelParser.flags ∧ DistinctShorts modelParser.flags ∧
      ¬ Sets f (ascii "3,1") modelParser after ∧
      after.cliValues (ascii "threads") = some [ascii "s"] ∧
      after.positionals = [ascii "3,1"] := by
  refine ⟨by decide +kernel, modelParser_distinct, ?_⟩
  unfold Sets
  decide +kernel

theorem shortOption_sets_iff_threads :
    let f : Flag := { name := ascii "threads", shortName := ascii "t", valueName := ascii "N" }
    f ∈ modelParser.flags ∧
      Sets f (ascii "8") modelParser (modelParser.parse (shortArgs f (ascii "8"))).1 := by
  intro f
  have member : f ∈ modelParser.flags := by decide +kernel
  refine ⟨member, (shortOption_sets_iff _ _ _ f _ modelParser_distinct member (by decide)
    (by decide)).mpr ⟨?_, ?_, ?_, ?_⟩⟩ <;> decide +kernel

end ArgParser
end Iian.Cli
