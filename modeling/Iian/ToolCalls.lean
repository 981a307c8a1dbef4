import Iian.Decode
import Iian.Lib.Json
import Mathlib.Data.List.DropRight

/- Tool calls in the text of an answer: `tool_calls.cpp`. The random id of a call is left
out. -/
namespace Iian

open Lib (Json)
open Lib.Json (Numbers isSpace)

inductive ToolFormat
  | none
  | hermes
  | llama3
  | mistral
  | generic
deriving DecidableEq, Repr

structure ToolCall where
  name : Bytes
  arguments : Bytes
deriving DecidableEq, Repr

structure ParsedAssistant where
  content : Bytes
  toolCalls : List ToolCall := []
deriving DecidableEq, Repr

namespace ToolCalls

/-- `<tool_call>` -/
def openTag : Bytes := [0x3C, 0x74, 0x6F, 0x6F, 0x6C, 0x5F, 0x63, 0x61, 0x6C, 0x6C, 0x3E]

/-- `</tool_call>` -/
def closeTag : Bytes := [0x3C, 0x2F, 0x74, 0x6F, 0x6F, 0x6C, 0x5F, 0x63, 0x61, 0x6C, 0x6C, 0x3E]

/-- `[TOOL_CALLS]` -/
def callsTag : Bytes := [0x5B, 0x54, 0x4F, 0x4F, 0x4C, 0x5F, 0x43, 0x41, 0x4C, 0x4C, 0x53, 0x5D]

/-- `<|python_tag|>` -/
def pythonTag : Bytes :=
  [0x3C, 0x7C, 0x70, 0x79, 0x74, 0x68, 0x6F, 0x6E, 0x5F, 0x74, 0x61, 0x67, 0x7C, 0x3E]

def nameKey : Bytes := [0x6E, 0x61, 0x6D, 0x65]

def argumentsKey : Bytes := [0x61, 0x72, 0x67, 0x75, 0x6D, 0x65, 0x6E, 0x74, 0x73]

def parametersKey : Bytes := [0x70, 0x61, 0x72, 0x61, 0x6D, 0x65, 0x74, 0x65, 0x72, 0x73]

/-- `trim`: the four bytes it removes are those JSON skips. -/
def trim (text : Bytes) : Bytes := (text.dropWhile isSpace).rdropWhile isSpace

/-- The bytes `{` and `[`. -/
def isOpen (byte : UInt8) : Bool := byte == 0x7B || byte == 0x5B

/-- The bytes `}` and `]`. -/
def isClose (byte : UInt8) : Bool := byte == 0x7D || byte == 0x5D

variable {Num : Type} (numbers : Numbers Num)

/-- The text kept for the arguments of a call; `{}` if it has none. -/
def argumentsText : Option (Json Num) → Bytes
  | .none => [0x7B, 0x7D]
  | some (.string text) => text
  | some value => value.dump numbers.print

def toolCallFromJson : Json Num → Option ToolCall
  | .object members =>
    match members.lookup nameKey with
    | some (.string name) =>
      some ⟨name, argumentsText numbers
        ((members.lookup argumentsKey).or (members.lookup parametersKey))⟩
    | _ => .none
  | _ => .none

/-- `collect_calls`; it returns whether the list is not empty. -/
def collectCalls : Json Num → List ToolCall
  | .array items => items.filterMap (toolCallFromJson numbers)
  | value => (toolCallFromJson numbers value).toList

/-- The loop of `parse_json_at`: the number of bytes up to the bracket that closes the first
one. The arguments are `depth`, `in_str` and `esc`. -/
def bracketEnd : Nat → Bool → Bool → Bytes → Option Nat
  | _, _, _, [] => .none
  | depth, true, true, _ :: rest => (bracketEnd depth true false rest).map (· + 1)
  | depth, true, false, byte :: rest =>
    if byte = 0x5C then (bracketEnd depth true true rest).map (· + 1)
    else (bracketEnd depth (byte != 0x22) false rest).map (· + 1)
  | depth, false, esc, byte :: rest =>
    if byte = 0x22 then (bracketEnd depth true esc rest).map (· + 1)
    else if isOpen byte then (bracketEnd (depth + 1) false esc rest).map (· + 1)
    else if isClose byte then
      if depth - 1 = 0 then some 1 else (bracketEnd (depth - 1) false esc rest).map (· + 1)
    else (bracketEnd depth false esc rest).map (· + 1)

/-- The value that starts at the head of a text, with the number of its bytes. -/
def parseJsonAt (text : Bytes) : Option (Json Num × Nat) := do
  let first ← text.head?
  if isOpen first then
    let length ← bracketEnd 0 false false text
    let value ← Json.parse numbers.read (text.take length)
    some (value, length)
  else .none

/-- The loop over the tags from the current place on: the content and the calls. Every turn
takes at least the two tags. -/
def hermesCalls (numbers : Numbers Num) : Nat → Bytes → Bytes × List ToolCall
  | 0, text => (text, [])
  | fuel + 1, text =>
    match Gen.findFrom text openTag 0 with
    | .none => (text, [])
    | some start =>
      let body := text.drop (start + openTag.length)
      match Gen.findFrom body closeTag 0 with
      | .none =>
        let calls := ((Json.parse numbers.read (trim body)).map (collectCalls numbers)).getD []
        (text.take start ++ if calls.isEmpty then text.drop start else [], calls)
      | some stop =>
        let calls := ((Json.parse numbers.read (trim (body.take stop))).map
          (collectCalls numbers)).getD []
        let place := start + openTag.length + stop + closeTag.length
        let rest := hermesCalls numbers fuel (text.drop place)
        (text.take start ++
          (if calls.isEmpty then (text.drop start).take (place - start) else []) ++ rest.1,
          calls ++ rest.2)

def parseHermes (text : Bytes) : ParsedAssistant :=
  let parsed := hermesCalls numbers (text.length + 1) text
  ⟨trim parsed.1, parsed.2⟩

/-- The calls behind the tag, with the places at which the tag starts and the value ends. -/
def mistralCalls (text : Bytes) : Option (Nat × Nat × List ToolCall) := do
  let start ← Gen.findFrom text callsTag 0
  let gap ← (text.drop (start + callsTag.length)).findIdx? isOpen
  let (value, length) ← parseJsonAt numbers (text.drop (start + callsTag.length + gap))
  if (collectCalls numbers value).isEmpty then .none
  else some (start, start + callsTag.length + gap + length, collectCalls numbers value)

def parseMistral (text : Bytes) : ParsedAssistant :=
  match mistralCalls numbers text with
  | some (start, stop, calls) => ⟨trim (text.take start ++ text.drop stop), calls⟩
  | .none => ⟨trim text, []⟩

/-- What may stand between two objects: `;`, `,` and what `isspace` accepts. -/
def isSeparator (byte : UInt8) : Bool :=
  byte == 0x3B || byte == 0x2C || byte == 0x20 || (0x09 ≤ byte.toNat && byte.toNat ≤ 0x0D)

/-- The loop over the objects: the calls, and the text from the place where it stops. -/
def objectCalls (numbers : Numbers Num) : Nat → Bytes → List ToolCall × Bytes
  | 0, text => ([], text)
  | fuel + 1, text =>
    match parseJsonAt numbers text with
    | .none => ([], text)
    | some (value, length) =>
      let calls := collectCalls numbers value
      let rest := (text.drop length).dropWhile isSeparator
      if calls.isEmpty then ([], text)
      else if (rest.head?.map isOpen).getD false then
        let more := objectCalls numbers fuel rest
        (calls ++ more.1, more.2)
      else (calls, rest)

/-- The text behind an optional python tag. -/
def untagged (text : Bytes) : Bytes :=
  if pythonTag.isPrefixOf (trim text) then trim ((trim text).drop pythonTag.length) else trim text

def parseObjects (text : Bytes) : ParsedAssistant :=
  let found := objectCalls numbers ((untagged text).length + 1) (untagged text)
  if found.1.isEmpty then ⟨trim text, []⟩ else ⟨trim found.2, found.1⟩

/-- `parse_tool_calls` -/
def parseToolCalls (text : Bytes) : ToolFormat → ParsedAssistant
  | .hermes => parseHermes numbers text
  | .mistral => parseMistral numbers text
  | .llama3 | .generic | .none => parseObjects numbers text

/-- The longest end of a text that starts the marker, of at most the given length. -/
def heldBytes (text marker : Bytes) : Nat → Nat
  | 0 => 0
  | count + 1 =>
    if text.drop (text.length - (count + 1)) = marker.take (count + 1) then count + 1
    else heldBytes text marker count

def heldForMarker (text marker : Bytes) : Nat :=
  match Gen.findFrom text marker 0 with
  | some start => start
  | .none => text.length - heldBytes text marker (min (marker.length - 1) text.length)

/-- `streamable_prefix` -/
def streamable (text : Bytes) : ToolFormat → Nat
  | .hermes => heldForMarker text openTag
  | .mistral => heldForMarker text callsTag
  | .llama3 | .generic | .none =>
    match (text.dropWhile isSpace).head? with
    | .none => 0
    | some byte => if isOpen byte || byte == 0x3C then 0 else text.length

end ToolCalls

end Iian
