import Iian.Sampling
import Iian.Lib.Shell
import Mathlib.Data.List.TakeWhile

/- The command lines that `model_resolve.cpp` gives to `system` where the build has no TLS. -/
namespace Iian

open List Lib Shell

/-- `shell_quote`. -/
def shellQuote (text : Bytes) : Bytes :=
  ascii "'" ++ text.flatMap (fun c => if c = 0x27 then ascii "'\\''" else [c]) ++ ascii "'"

/-- The value of an environment variable, if it is not empty. -/
def setToken (token : Option Bytes) : Option Bytes := token.filter (· ≠ [])

def bearer (token : Bytes) : Bytes := ascii "Authorization: Bearer " ++ token

/-- What is added to a command line if there is a token. -/
def tokenOption (token : Option Bytes) : Bytes :=
  match setToken token with
  | none => []
  | some token => ascii " -H " ++ shellQuote (bearer token)

/-- The command line of `download_with_curl`; `token` is the value of `HF_TOKEN`. -/
def downloadCommand (url dst : Bytes) (quiet : Bool) (token : Option Bytes) : Bytes :=
  ascii "curl -L --fail --retry 3 -C - " ++ ascii (if quiet then "-sS " else "--progress-bar ") ++
    ascii "-o " ++ shellQuote dst ++ ascii " " ++ shellQuote url ++ tokenOption token

/-- The text of a C string. -/
def cString (text : Bytes) : Bytes := text.takeWhile (· ≠ 0)

def tokenArguments (token : Option Bytes) : List Bytes :=
  match setToken token with
  | none => []
  | some token => [ascii "-H", bearer token]

/-- The arguments that `download_with_curl` means. -/
def downloadArguments (url dst : Bytes) (quiet : Bool) (token : Option Bytes) : List Bytes :=
  ["curl", "-L", "--fail", "--retry", "3", "-C", "-", if quiet then "-sS" else "--progress-bar", "-o"].map ascii ++
    [dst, url] ++ tokenArguments token

section Quotes

variable {reader : Reader} {text more : Bytes}

/-- Quoted bytes, up to the quote that closes. -/
theorem read_escaped (quoted : reader.quoting = .single) (begun : reader.word ≠ none) :
    reader.read (text.flatMap (fun c => if c = 0x27 then ascii "'\\''" else [c]) ++ more) =
      (reader.add text).read more := by
  induction text generalizing reader with
  | nil =>
    obtain ⟨quoting, word, words⟩ := reader
    obtain ⟨word, rfl⟩ := Option.ne_none_iff_exists'.mp begun
    rw [Reader.add, append_nil]
    rfl
  | cons byte text ih =>
    have later := @ih (reader.add [byte]) quoted (Option.some_ne_none _)
    rw [Reader.add_add] at later
    rw [flatMap_cons, append_assoc]
    by_cases quote : byte = 0x27
    · rw [if_pos quote]
      subst quote
      exact (Reader.read_quote quoted begun _).trans later
    · rw [if_neg quote]
      exact (Reader.read_single quoted quote _).trans later

/-- What `shell_quote` makes of a text is one word, the text itself. -/
theorem read_shellQuote (plain : reader.quoting = .none) (fresh : reader.word = none) :
    reader.read (shellQuote text ++ more) = ({ reader with word := some text } : Reader).read more := by
  have shape : shellQuote text ++ more =
      0x27 :: (text.flatMap (fun c => if c = 0x27 then ascii "'\\''" else [c]) ++ (0x27 :: more)) := by
    rw [shellQuote, append_assoc, append_assoc]
    rfl
  rw [shape, Reader.read_open plain, read_escaped rfl (Option.some_ne_none _), Reader.read_close rfl]
  obtain ⟨quoting, word, words⟩ := reader
  cases plain
  cases fresh
  rfl

end Quotes

theorem read_tokenOption {word : Bytes} {words : List Bytes} (token : Option Bytes) :
    (({ word := some word, words := words } : Reader).read (tokenOption token)).map Reader.endWord =
      some { words := words ++ [word] ++ tokenArguments token } := by
  rw [tokenOption, tokenArguments]
  cases setToken token with
  | none =>
    rw [append_nil]
    rfl
  | some token =>
    have option := @Reader.read_words { words := words ++ [word] } [ascii "-H"] rfl rfl
      (by decide +kernel)
    have quoted := @read_shellQuote { words := words ++ [word] ++ [ascii "-H"] } (bearer token) [] rfl rfl
    rw [append_nil] at quoted
    change (({ word := some word, words := words } : Reader).read
      (0x20 :: ([ascii "-H"].flatMap (· ++ [0x20]) ++ shellQuote (bearer token)))).map _ = _
    rw [Reader.read_blank rfl, Reader.read_append]
    change (Option.bind (Reader.read { words := words ++ [word] } _) _).map _ = _
    rw [option, Option.bind_some, quoted]
    simp [Reader.read, Reader.endWord]

/-- Options, two quoted words and the token. -/
theorem argv_options {options : List Bytes} (first second : Bytes) (token : Option Bytes)
    (ordinary : ∀ text ∈ options, text ≠ [] ∧ ∀ byte ∈ text, isOrdinary byte = true)
    (name : options.head?.any isName = true) :
    argv (options.flatMap (· ++ [0x20]) ++ (shellQuote first ++ 0x20 :: (shellQuote second ++ tokenOption token))) =
      some (options ++ [first, second] ++ tokenArguments token) := by
  obtain ⟨reader, read, shape⟩ := Option.map_eq_some_iff.mp
    (@read_tokenOption second (options ++ [first]) token)
  have whole : ({} : Reader).read (options.flatMap (· ++ [0x20]) ++
      (shellQuote first ++ 0x20 :: (shellQuote second ++ tokenOption token))) = some reader := by
    rw [Reader.read_append, Reader.read_words rfl rfl ordinary, Option.bind_some, nil_append,
      read_shellQuote rfl rfl, Reader.read_blank rfl]
    exact (read_shellQuote rfl rfl).trans read
  have quoting : reader.quoting = .none := congrArg Reader.quoting shape
  have words : reader.endWord.words = options ++ [first] ++ [second] ++ tokenArguments token :=
    congrArg Reader.words shape
  rw [argv, whole, Option.bind_eq_bind, Option.bind_some, quoting]
  dsimp only
  rw [words]
  obtain ⟨command, more, rfl⟩ : ∃ command more, options = command :: more := by
    cases options with
    | nil => cases name
    | cons command more => exact ⟨command, more, rfl⟩
  rw [if_pos (by simpa using name)]
  simp

theorem cString_eq {text : Bytes} (whole : 0 ∉ text) : cString text = text := by
  rw [cString, takeWhile_eq_self_iff]
  intro byte member
  exact decide_eq_true fun zero => whole (zero ▸ member)

theorem zero_shellQuote {text : Bytes} (whole : 0 ∉ text) : (0 : UInt8) ∉ shellQuote text := by
  rw [shellQuote]
  simp only [mem_append, mem_flatMap, not_or, not_exists, not_and]
  refine ⟨⟨by decide, fun byte member => ?_⟩, by decide⟩
  split
  · decide
  · rw [mem_singleton]
    exact fun same => whole (same ▸ member)

theorem zero_tokenOption {token : Option Bytes} (whole : ∀ text ∈ token, 0 ∉ text) :
    (0 : UInt8) ∉ tokenOption token := by
  rw [tokenOption]
  split
  · exact not_mem_nil
  rename_i text set
  have member : text ∈ token := (Option.filter_eq_some_iff.mp set).1
  have header : (0 : UInt8) ∉ bearer text := by
    rw [bearer, mem_append, not_or]
    exact ⟨by decide, whole text member⟩
  rw [mem_append, not_or]
  exact ⟨by decide, zero_shellQuote header⟩

/-- The shell makes of the command line of a download the arguments that are meant, and nothing else. -/
theorem downloadCommand_argv (url dst : Bytes) (quiet : Bool) (token : Option Bytes) (urlText : 0 ∉ url)
    (dstText : 0 ∉ dst) (tokenText : ∀ text ∈ token, 0 ∉ text) :
    argv (cString (downloadCommand url dst quiet token)) = some (downloadArguments url dst quiet token) := by
  have whole : (0 : UInt8) ∉ downloadCommand url dst quiet token := by
    simp only [downloadCommand, mem_append, not_or]
    refine ⟨⟨⟨⟨⟨⟨by decide, ?_⟩, by decide⟩, zero_shellQuote dstText⟩, by decide⟩, zero_shellQuote urlText⟩,
      zero_tokenOption tokenText⟩
    cases quiet <;> decide
  rw [cString_eq whole]
  rw [downloadCommand]
  simp only [append_assoc]
  cases quiet with
  | true =>
    exact @argv_options (["curl", "-L", "--fail", "--retry", "3", "-C", "-", "-sS", "-o"].map ascii) dst url token
      (by decide +kernel) (by decide +kernel)
  | false =>
    exact @argv_options
      (["curl", "-L", "--fail", "--retry", "3", "-C", "-", "--progress-bar", "-o"].map ascii) dst url token
      (by decide +kernel) (by decide +kernel)

theorem downloadCommand_argv_quotes :
    argv (cString (downloadCommand (ascii "https://host/a'; rm -rf ~ #") (ascii "$(dst) `x`\n") true
      (some (ascii "'token'")))) =
      some (["curl", "-L", "--fail", "--retry", "3", "-C", "-", "-sS", "-o", "$(dst) `x`\n",
        "https://host/a'; rm -rf ~ #", "-H", "Authorization: Bearer 'token'"].map ascii) :=
  downloadCommand_argv _ _ true _ (by decide) (by decide) (by decide)

end Iian
