import Iian.Lib.Utf8

/- JSON texts, read and written as a strict library does: strings must be well-formed UTF-8,
escaped surrogates must come in pairs, the last of equal keys counts, and a NUL byte between
two tokens ends the text. Numbers are converted by functions that are given. -/
namespace Iian.Lib

inductive Json (Num : Type)
  | null
  | bool (value : Bool)
  | number (value : Num)
  | string (value : List UInt8)
  | array (items : List (Json Num))
  | object (members : List (List UInt8 × Json Num))

namespace Json

open Utf8 (isChar width)

def isSpace (byte : UInt8) : Bool := byte == 0x20 || byte == 0x09 || byte == 0x0A || byte == 0x0D

def isDigit (byte : UInt8) : Bool := 0x30 ≤ byte.toNat && byte.toNat ≤ 0x39

def skipSpace (text : List UInt8) : List UInt8 := text.dropWhile isSpace

/-- The text behind a byte that must come next. -/
def eat (byte : UInt8) : List UInt8 → Option (List UInt8)
  | [] => none
  | first :: rest => if first = byte then some rest else none

def hexDigit (byte : UInt8) : Option Nat :=
  if isDigit byte then some (byte.toNat - 0x30)
  else if 0x61 ≤ byte.toNat && byte.toNat ≤ 0x66 then some (byte.toNat - 0x57)
  else if 0x41 ≤ byte.toNat && byte.toNat ≤ 0x46 then some (byte.toNat - 0x37)
  else none

def hex4 : List UInt8 → Option (Nat × List UInt8)
  | a :: b :: c :: d :: rest => do
    let a ← hexDigit a
    let b ← hexDigit b
    let c ← hexDigit c
    let d ← hexDigit d
    some (a * 4096 + b * 256 + c * 16 + d, rest)
  | _ => none

/-- The encoding of a code point. -/
def encode (point : Nat) : List UInt8 :=
  if point < 0x80 then [.ofNat point]
  else if point < 0x800 then [.ofNat (0xC0 + point / 64), .ofNat (0x80 + point % 64)]
  else if point < 0x10000 then
    [.ofNat (0xE0 + point / 4096), .ofNat (0x80 + point / 64 % 64), .ofNat (0x80 + point % 64)]
  else
    [.ofNat (0xF0 + point / 262144), .ofNat (0x80 + point / 4096 % 64),
      .ofNat (0x80 + point / 64 % 64), .ofNat (0x80 + point % 64)]

/-- The bytes `"`, `\`, `/`, and `b`, `f`, `n`, `r`, `t` behind a backslash. -/
def escaped (byte : UInt8) : Option UInt8 :=
  if byte = 0x22 ∨ byte = 0x5C ∨ byte = 0x2F then some byte
  else if byte = 0x62 then some 0x08
  else if byte = 0x66 then some 0x0C
  else if byte = 0x6E then some 0x0A
  else if byte = 0x72 then some 0x0D
  else if byte = 0x74 then some 0x09
  else none

/-- The digits behind `\u`. -/
def scanUnicode (text : List UInt8) : Option (List UInt8 × List UInt8) := do
  let (first, rest) ← hex4 text
  if 0xD800 ≤ first ∧ first < 0xDC00 then
    let rest ← eat 0x5C rest
    let rest ← eat 0x75 rest
    let (second, rest) ← hex4 rest
    if 0xDC00 ≤ second ∧ second < 0xE000 then
      some (encode (0x10000 + (first - 0xD800) * 0x400 + (second - 0xDC00)), rest)
    else none
  else if 0xDC00 ≤ first ∧ first < 0xE000 then none
  else some (encode first, rest)

/-- One character of a string, as it stands or escaped. -/
def scanChar : List UInt8 → Option (List UInt8 × List UInt8)
  | [] => none
  | byte :: rest =>
    if byte = 0x5C then
      match rest with
      | [] => none
      | kind :: rest =>
        if kind = 0x75 then scanUnicode rest
        else (escaped kind).map (fun byte => ([byte], rest))
    else if byte.toNat < 0x20 then none
    else
      let char := (byte :: rest).take (width byte)
      if isChar char then some (char, (byte :: rest).drop (width byte)) else none

/-- The rest of a string behind its opening quote. -/
def scanString : Nat → List UInt8 → Option (List UInt8 × List UInt8)
  | 0, _ => none
  | fuel + 1, text =>
    match eat 0x22 text with
    | some rest => some ([], rest)
    | none => do
      let (char, rest) ← scanChar text
      let (value, rest) ← scanString fuel rest
      some (char ++ value, rest)

/-- At least one digit. -/
def scanDigits (text : List UInt8) : Option (List UInt8 × List UInt8) :=
  if (text.takeWhile isDigit).isEmpty then none
  else some (text.takeWhile isDigit, text.dropWhile isDigit)

def scanInteger (text : List UInt8) : Option (List UInt8 × List UInt8) :=
  match eat 0x30 text with
  | some rest => some ([0x30], rest)
  | none => scanDigits text

def scanFraction (text : List UInt8) : Option (List UInt8 × List UInt8) :=
  match eat 0x2E text with
  | none => some ([], text)
  | some rest => (scanDigits rest).map (fun (digits, rest) => (0x2E :: digits, rest))

def scanSign (text : List UInt8) : List UInt8 × List UInt8 :=
  match text with
  | [] => ([], [])
  | sign :: rest => if sign = 0x2B ∨ sign = 0x2D then ([sign], rest) else ([], sign :: rest)

def scanExponent (text : List UInt8) : Option (List UInt8 × List UInt8) :=
  match text with
  | [] => some ([], [])
  | mark :: rest =>
    if mark = 0x65 ∨ mark = 0x45 then
      let (sign, rest) := scanSign rest
      (scanDigits rest).map (fun (digits, rest) => (mark :: sign ++ digits, rest))
    else some ([], mark :: rest)

def scanMinus (text : List UInt8) : List UInt8 × List UInt8 :=
  match eat 0x2D text with
  | some rest => ([0x2D], rest)
  | none => ([], text)

/-- The longest number at the head of a text. -/
def scanNumber (text : List UInt8) : Option (List UInt8 × List UInt8) := do
  let (sign, rest) := scanMinus text
  let (integer, rest) ← scanInteger rest
  let (fraction, rest) ← scanFraction rest
  let (exponent, rest) ← scanExponent rest
  some (sign ++ integer ++ fraction ++ exponent, rest)

/-- Keys are unique and sorted; the last value of a key counts. -/
def setKey {α : Type} (key : List UInt8) (value : α) :
    List (List UInt8 × α) → List (List UInt8 × α)
  | [] => [(key, value)]
  | (other, old) :: rest =>
    if key = other then (key, value) :: rest
    else if key < other then (key, value) :: (other, old) :: rest
    else (other, old) :: setKey key value rest

theorem mem_setKey {α : Type} {key other : List UInt8} {value : α}
    {items : List (List UInt8 × α)} :
    other ∈ (setKey key value items).map Prod.fst ↔ other = key ∨ other ∈ items.map Prod.fst := by
  induction items with
  | nil => simp [setKey]
  | cons item items ih =>
    obtain ⟨first, old⟩ := item
    rw [setKey]
    split
    · rename_i same
      subst same
      simp
    · split
      · simp
      · rw [List.map_cons, List.mem_cons, ih, List.map_cons, List.mem_cons]
        tauto

variable {Num : Type}

/-- The words `true`, `false` and `null`. -/
def scanWord (text : List UInt8) : Option (Json Num × List UInt8) :=
  if text.take 4 = [0x74, 0x72, 0x75, 0x65] then some (.bool true, text.drop 4)
  else if text.take 5 = [0x66, 0x61, 0x6C, 0x73, 0x65] then some (.bool false, text.drop 5)
  else if text.take 4 = [0x6E, 0x75, 0x6C, 0x6C] then some (.null, text.drop 4)
  else none

mutual

/-- The value at the head of a text. Every level of the recursion takes a byte. -/
def parseValue (read : List UInt8 → Option Num) : Nat → List UInt8 → Option (Json Num × List UInt8)
  | 0, _ => none
  | fuel + 1, text =>
    match skipSpace text with
    | [] => none
    | byte :: rest =>
      if byte = 0x7B then
        match eat 0x7D (skipSpace rest) with
        | some rest => some (.object [], rest)
        | none => parseMembers read fuel rest []
      else if byte = 0x5B then
        match eat 0x5D (skipSpace rest) with
        | some rest => some (.array [], rest)
        | none => parseItems read fuel rest []
      else if byte = 0x22 then
        (scanString fuel rest).map (fun (value, rest) => (.string value, rest))
      else if byte = 0x2D ∨ isDigit byte = true then do
        let (token, rest) ← scanNumber (byte :: rest)
        let value ← read token
        some (.number value, rest)
      else scanWord (byte :: rest)

def parseMembers (read : List UInt8 → Option Num) :
    Nat → List UInt8 → List (List UInt8 × Json Num) → Option (Json Num × List UInt8)
  | 0, _, _ => none
  | fuel + 1, text, members => do
    let rest ← eat 0x22 (skipSpace text)
    let (key, rest) ← scanString fuel rest
    let rest ← eat 0x3A (skipSpace rest)
    let (value, rest) ← parseValue read fuel rest
    match eat 0x2C (skipSpace rest) with
    | some rest => parseMembers read fuel rest (setKey key value members)
    | none => (eat 0x7D (skipSpace rest)).map (fun rest =>
      (.object (setKey key value members), rest))

def parseItems (read : List UInt8 → Option Num) :
    Nat → List UInt8 → List (Json Num) → Option (Json Num × List UInt8)
  | 0, _, _ => none
  | fuel + 1, text, items => do
    let (value, rest) ← parseValue read fuel text
    match eat 0x2C (skipSpace rest) with
    | some rest => parseItems read fuel rest (items ++ [value])
    | none => (eat 0x5D (skipSpace rest)).map (fun rest => (.array (items ++ [value]), rest))

end

/-- A byte order mark may stand in front of a text. -/
def skipBom (text : List UInt8) : List UInt8 :=
  if text.take 3 = [0xEF, 0xBB, 0xBF] then text.drop 3 else text

/-- A whole text, or nothing if it is not one. -/
def parse (read : List UInt8 → Option Num) (text : List UInt8) : Option (Json Num) := do
  let (value, rest) ← parseValue read (text.length + 1) (skipBom text)
  if (skipSpace rest).headD 0 = 0 then some value else none

def hexByte (digit : Nat) : UInt8 := if digit < 10 then .ofNat (0x30 + digit) else .ofNat (0x57 + digit)

def escapeByte (byte : UInt8) : List UInt8 :=
  if byte = 0x22 ∨ byte = 0x5C then [0x5C, byte]
  else if byte = 0x08 then [0x5C, 0x62]
  else if byte = 0x0C then [0x5C, 0x66]
  else if byte = 0x0A then [0x5C, 0x6E]
  else if byte = 0x0D then [0x5C, 0x72]
  else if byte = 0x09 then [0x5C, 0x74]
  else if byte.toNat < 0x20 then
    [0x5C, 0x75, 0x30, 0x30, hexByte (byte.toNat / 16), hexByte (byte.toNat % 16)]
  else [byte]

def dumpString (value : List UInt8) : List UInt8 := 0x22 :: value.flatMap escapeByte ++ [0x22]

mutual

/-- The shortest text of a value. -/
def dump (print : Num → List UInt8) : Json Num → List UInt8
  | .null => [0x6E, 0x75, 0x6C, 0x6C]
  | .bool true => [0x74, 0x72, 0x75, 0x65]
  | .bool false => [0x66, 0x61, 0x6C, 0x73, 0x65]
  | .number value => print value
  | .string value => dumpString value
  | .array items => 0x5B :: dumpItems print items ++ [0x5D]
  | .object members => 0x7B :: dumpMembers print members ++ [0x7D]

def dumpItems (print : Num → List UInt8) : List (Json Num) → List UInt8
  | [] => []
  | [item] => dump print item
  | item :: next :: items => dump print item ++ 0x2C :: dumpItems print (next :: items)

def dumpMembers (print : Num → List UInt8) : List (List UInt8 × Json Num) → List UInt8
  | [] => []
  | [(key, value)] => dumpString key ++ 0x3A :: dump print value
  | (key, value) :: next :: members =>
    dumpString key ++ 0x3A :: dump print value ++ 0x2C :: dumpMembers print (next :: members)

end

/-- How numbers are read and written: what is written is one number, and it is read back. -/
structure Numbers (Num : Type) where
  read : List UInt8 → Option Num
  print : Num → List UInt8
  scans : ∀ value, scanNumber (print value) = some (print value, [])
  reads : ∀ value, read (print value) = some value

/-- Numbers that are kept as they are spelled. -/
def Numbers.spelled : Numbers { token : List UInt8 // scanNumber token = some (token, []) } where
  read token := if valid : scanNumber token = some (token, []) then some ⟨token, valid⟩ else none
  print := Subtype.val
  scans value := value.2
  reads value := dif_pos value.2

end Json

end Iian.Lib
