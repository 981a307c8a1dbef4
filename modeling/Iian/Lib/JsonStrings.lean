import Iian.Lib.Json

/- The strings of a JSON value that was read are well-formed, and so is the text of a value
with well-formed strings. -/
namespace Iian.Lib.Json

open List
open Utf8 (Valid isChar isTail ascii_of_all valid_ascii)

variable {Num : Type}

mutual

/-- All strings of a value, keys included. -/
def strings : Json Num → List (List UInt8)
  | .null | .bool _ | .number _ => []
  | .string value => [value]
  | .array items => itemStrings items
  | .object members => memberStrings members

def itemStrings : List (Json Num) → List (List UInt8)
  | [] => []
  | item :: items => strings item ++ itemStrings items

def memberStrings : List (List UInt8 × Json Num) → List (List UInt8)
  | [] => []
  | (key, value) :: members => key :: (strings value ++ memberStrings members)

end

/-- All strings are well-formed. -/
def Sound (value : Json Num) : Prop := ∀ text ∈ value.strings, Valid text

section Scanning

theorem hexDigit_lt {byte : UInt8} {digit : Nat} (read : hexDigit byte = some digit) :
    digit < 16 := by
  unfold hexDigit isDigit at read
  simp only [Bool.and_eq_true, decide_eq_true_eq] at read
  split at read
  · cases read
    omega
  split at read
  · cases read
    omega
  split at read
  · cases read
    omega
  · cases read

variable {text rest char : List UInt8}

theorem hex4_lt {value : Nat} (read : hex4 text = some (value, rest)) : value < 0x10000 := by
  unfold hex4 at read
  split at read
  · simp only [Option.bind_eq_bind, Option.bind_eq_some_iff, Option.some.injEq,
      Prod.mk.injEq] at read
    obtain ⟨a, first, b, second, c, third, d, fourth, rfl, _⟩ := read
    have := hexDigit_lt first
    have := hexDigit_lt second
    have := hexDigit_lt third
    have := hexDigit_lt fourth
    omega
  · cases read

/-- The encoding of a code point that is not a surrogate is a character. -/
theorem isChar_encode {point : Nat} (bound : point < 0x110000)
    (scalar : point < 0xD800 ∨ 0xE000 ≤ point) : isChar (encode point) = true := by
  have small : ∀ value, value < 256 → (UInt8.ofNat value).toNat = value := by
    intro value less
    exact UInt8.toNat_ofNat_of_lt' less
  have other : ∀ value lead : Nat, value < 256 → lead < 256 → value ≠ lead →
      (UInt8.ofNat value != UInt8.ofNat lead) = true := by
    intro value lead less bounded differ
    rw [bne_iff_ne]
    intro same
    have equal := congrArg UInt8.toNat same
    rw [small _ less, small _ bounded] at equal
    exact differ equal
  unfold encode
  split
  · rename_i ascii
    simp only [isChar, decide_eq_true_eq]
    rw [small _ (by omega)]
    exact ascii
  · split
    · simp only [isChar, isTail, Bool.and_eq_true, decide_eq_true_eq]
      rw [small _ (by omega), small _ (by omega)]
      omega
    · split
      · simp only [isChar, isTail, Bool.and_eq_true, decide_eq_true_eq, Bool.or_eq_true]
        rw [small _ (by omega), small _ (by omega), small _ (by omega)]
        refine ⟨⟨⟨⟨⟨by omega, by omega⟩, by omega, by omega⟩, by omega, by omega⟩, ?_⟩, ?_⟩
        · by_cases low : 0xA0 ≤ 0x80 + point / 64 % 64
          · exact .inr low
          · exact .inl (other _ 0xE0 (by omega) (by omega) (by omega))
        · by_cases high : 0x80 + point / 64 % 64 < 0xA0
          · exact .inr high
          · exact .inl (other _ 0xED (by omega) (by omega) (by omega))
      · simp only [isChar, isTail, Bool.and_eq_true, decide_eq_true_eq, Bool.or_eq_true]
        rw [small _ (by omega), small _ (by omega), small _ (by omega), small _ (by omega)]
        refine ⟨⟨⟨⟨⟨⟨by omega, by omega⟩, by omega, by omega⟩, by omega, by omega⟩, by omega,
          by omega⟩, ?_⟩, ?_⟩
        · by_cases low : 0x90 ≤ 0x80 + point / 4096 % 64
          · exact .inr low
          · exact .inl (other _ 0xF0 (by omega) (by omega) (by omega))
        · by_cases high : 0x80 + point / 4096 % 64 < 0x90
          · exact .inr high
          · exact .inl (other _ 0xF4 (by omega) (by omega) (by omega))

theorem escaped_ascii {kind byte : UInt8} (known : escaped kind = some byte) :
    byte.toNat < 0x80 := by
  unfold escaped at known
  split at known
  · rename_i own
    cases known
    rcases own with rfl | rfl | rfl <;> decide
  · repeat' split at known
    all_goals cases known
    all_goals decide

theorem scanUnicode_valid (read : scanUnicode text = some (char, rest)) :
    Valid char := by
  have one : ∀ {point : Nat}, point < 0x110000 → point < 0xD800 ∨ 0xE000 ≤ point →
      Valid (encode point) := by
    intro point bound scalar
    have char := Valid.cons (isChar_encode bound scalar) Valid.nil
    rwa [append_nil] at char
  unfold scanUnicode at read
  obtain ⟨⟨first, behind⟩, digits, read⟩ := Option.bind_eq_some_iff.mp read
  have bound := hex4_lt digits
  dsimp only at read
  split at read
  · obtain ⟨_, _, read⟩ := Option.bind_eq_some_iff.mp read
    obtain ⟨_, _, read⟩ := Option.bind_eq_some_iff.mp read
    obtain ⟨⟨second, last⟩, more, read⟩ := Option.bind_eq_some_iff.mp read
    dsimp only at read
    split at read
    · rw [← (Prod.mk.inj (Option.some.inj read)).1]
      exact one (by omega) (by omega)
    · cases read
  · split at read
    · cases read
    · rw [← (Prod.mk.inj (Option.some.inj read)).1]
      exact one (by omega) (by omega)

theorem scanChar_valid (read : scanChar text = some (char, rest)) :
    Valid char := by
  unfold scanChar at read
  split at read
  · cases read
  split at read
  · split at read
    · cases read
    split at read
    · exact scanUnicode_valid read
    · obtain ⟨byte, known, shape⟩ := Option.map_eq_some_iff.mp read
      cases shape
      exact valid_ascii (by simpa using escaped_ascii known)
  · split at read
    · cases read
    dsimp only at read
    split at read
    · rename_i one
      cases read
      have char := Valid.cons one Valid.nil
      rwa [append_nil] at char
    · cases read

theorem scanString_valid {fuel : Nat} {value : List UInt8}
    (read : scanString fuel text = some (value, rest)) : Valid value := by
  induction fuel generalizing text value with
  | zero => cases read
  | succ fuel ih =>
    rw [scanString] at read
    split at read
    · cases read
      exact .nil
    obtain ⟨⟨char, behind⟩, first, read⟩ := Option.bind_eq_some_iff.mp read
    obtain ⟨⟨more, last⟩, later, shape⟩ := Option.bind_eq_some_iff.mp read
    cases shape
    exact (scanChar_valid first).append (ih later)

end Scanning

section Reading

variable {value : Json Num} {text : List UInt8}

theorem memberStrings_setKey {key : List UInt8} {members : List (List UInt8 × Json Num)}
    (member : text ∈ memberStrings (setKey key value members)) :
    text = key ∨ text ∈ value.strings ∨ text ∈ memberStrings members := by
  induction members with
  | nil => simpa [setKey, memberStrings] using member
  | cons item members ih =>
    obtain ⟨other, old⟩ := item
    rw [setKey] at member
    split at member
    · simp only [memberStrings, mem_cons, mem_append] at member ⊢
      tauto
    split at member
    · simp only [memberStrings, mem_cons, mem_append] at member ⊢
      tauto
    simp only [memberStrings, mem_cons, mem_append] at member ⊢
    rcases member with here | old | later
    · tauto
    · tauto
    · have := ih later
      tauto

theorem itemStrings_append (front back : List (Json Num)) :
    itemStrings (front ++ back) = itemStrings front ++ itemStrings back := by
  induction front with
  | nil => rfl
  | cons item front ih => rw [cons_append, itemStrings, itemStrings, ih, append_assoc]

theorem scanWord_sound {rest : List UInt8} (read : scanWord text = some (value, rest)) :
    Sound value := by
  unfold scanWord at read
  repeat' split at read
  all_goals cases read
  all_goals exact nofun

/-- What is read has well-formed strings; the three statements are about a value, the rest of
an object and the rest of an array. -/
theorem parse_sound_fuel (read : List UInt8 → Option Num) (fuel : Nat) :
    (∀ {text rest : List UInt8} {value : Json Num},
        parseValue read fuel text = some (value, rest) → Sound value) ∧
      (∀ {text rest : List UInt8} {members : List (List UInt8 × Json Num)} {value : Json Num},
        (∀ text ∈ memberStrings members, Valid text) →
        parseMembers read fuel text members = some (value, rest) → Sound value) ∧
      ∀ {text rest : List UInt8} {items : List (Json Num)} {value : Json Num},
        (∀ text ∈ itemStrings items, Valid text) →
        parseItems read fuel text items = some (value, rest) → Sound value := by
  induction fuel with
  | zero =>
    refine ⟨?_, ?_, ?_⟩
    · intro text rest value ended
      cases ended
    · intro text rest members value _ ended
      cases ended
    · intro text rest items value _ ended
      cases ended
  | succ fuel ih =>
    obtain ⟨values, members, items⟩ := ih
    refine ⟨?_, ?_, ?_⟩
    · intro text rest value ended
      rw [parseValue] at ended
      split at ended
      · cases ended
      split at ended
      · split at ended
        · cases ended
          exact nofun
        · exact members (by simp [memberStrings]) ended
      · split at ended
        · split at ended
          · cases ended
            exact nofun
          · exact items (by simp [itemStrings]) ended
        · split at ended
          · obtain ⟨⟨string, last⟩, scanned, shape⟩ := Option.map_eq_some_iff.mp ended
            cases shape
            intro text member
            rw [mem_singleton.mp member]
            exact scanString_valid scanned
          · split at ended
            · obtain ⟨⟨token, last⟩, _, ended⟩ := Option.bind_eq_some_iff.mp ended
              obtain ⟨number, _, shape⟩ := Option.bind_eq_some_iff.mp ended
              cases shape
              exact nofun
            · exact scanWord_sound ended
    · intro text rest old value sound ended
      rw [parseMembers] at ended
      obtain ⟨_, _, ended⟩ := Option.bind_eq_some_iff.mp ended
      obtain ⟨⟨key, _⟩, scanned, ended⟩ := Option.bind_eq_some_iff.mp ended
      obtain ⟨_, _, ended⟩ := Option.bind_eq_some_iff.mp ended
      obtain ⟨⟨one, last⟩, parsed, ended⟩ := Option.bind_eq_some_iff.mp ended
      have next : ∀ text ∈ memberStrings (setKey key one old), Valid text := by
        intro text member
        rcases memberStrings_setKey member with rfl | inside | before
        · exact scanString_valid scanned
        · exact values parsed text inside
        · exact sound text before
      dsimp only at ended
      split at ended
      · exact members next ended
      · obtain ⟨_, _, shape⟩ := Option.map_eq_some_iff.mp ended
        cases shape
        exact next
    · intro text rest old value sound ended
      rw [parseItems] at ended
      obtain ⟨⟨one, last⟩, parsed, ended⟩ := Option.bind_eq_some_iff.mp ended
      have next : ∀ text ∈ itemStrings (old ++ [one]), Valid text := by
        intro text member
        rw [itemStrings_append] at member
        rcases mem_append.mp member with before | inside
        · exact sound text before
        · rw [itemStrings, itemStrings, append_nil] at inside
          exact values parsed text inside
      dsimp only at ended
      split at ended
      · exact items next ended
      · obtain ⟨_, _, shape⟩ := Option.map_eq_some_iff.mp ended
        cases shape
        exact next

theorem parse_sound {read : List UInt8 → Option Num} (parsed : parse read text = some value) :
    Sound value := by
  obtain ⟨⟨one, rest⟩, first, ended⟩ := Option.bind_eq_some_iff.mp parsed
  dsimp only at ended
  split at ended
  · cases ended
    exact (parse_sound_fuel read _).1 first
  · cases ended

end Reading

section Writing

variable {byte : UInt8} {text digits rest : List UInt8}

theorem isDigit_ascii (digit : isDigit byte = true) : byte.toNat < 0x80 := by
  simp only [isDigit, Bool.and_eq_true, decide_eq_true_eq] at digit
  omega

theorem scanDigits_ascii (read : scanDigits text = some (digits, rest)) :
    ∀ byte ∈ digits, byte.toNat < 0x80 := by
  unfold scanDigits at read
  split at read
  · cases read
  · cases read
    intro byte member
    exact isDigit_ascii (mem_takeWhile_imp member)

theorem scanInteger_ascii (read : scanInteger text = some (digits, rest)) :
    ∀ byte ∈ digits, byte.toNat < 0x80 := by
  unfold scanInteger at read
  split at read
  · cases read
    exact ascii_of_all (by decide)
  · exact scanDigits_ascii read

theorem scanFraction_ascii (read : scanFraction text = some (digits, rest)) :
    ∀ byte ∈ digits, byte.toNat < 0x80 := by
  unfold scanFraction at read
  split at read
  · cases read
    exact nofun
  obtain ⟨⟨found, behind⟩, scanned, shape⟩ := Option.map_eq_some_iff.mp read
  cases shape
  rw [forall_mem_cons]
  exact ⟨by decide, scanDigits_ascii scanned⟩

theorem scanExponent_ascii (read : scanExponent text = some (digits, rest)) :
    ∀ byte ∈ digits, byte.toNat < 0x80 := by
  have sign : ∀ text : List UInt8, ∀ byte ∈ (scanSign text).1, byte.toNat < 0x80 := by
    intro text byte member
    unfold scanSign at member
    split at member
    · cases member
    split at member
    · rename_i known
      rw [mem_singleton.mp member]
      rcases known with rfl | rfl <;> decide
    · cases member
  unfold scanExponent at read
  split at read
  · cases read
    exact nofun
  split at read
  · rename_i known
    obtain ⟨⟨found, behind⟩, scanned, shape⟩ := Option.map_eq_some_iff.mp read
    cases shape
    intro byte member
    rcases mem_append.mp member with front | digits
    · rcases mem_cons.mp front with rfl | inside
      · rcases known with rfl | rfl <;> decide
      · exact sign _ byte inside
    · exact scanDigits_ascii scanned byte digits
  · cases read
    exact nofun

/-- The text of a number is ASCII. -/
theorem scanNumber_ascii {token : List UInt8} (read : scanNumber text = some (token, rest)) :
    ∀ byte ∈ token, byte.toNat < 0x80 := by
  have minus : ∀ byte ∈ (scanMinus text).1, byte.toNat < 0x80 := by
    intro byte member
    unfold scanMinus at member
    split at member
    · rw [mem_singleton.mp member]
      decide
    · cases member
  unfold scanNumber at read
  dsimp only at read
  obtain ⟨⟨integer, _⟩, first, read⟩ := Option.bind_eq_some_iff.mp read
  obtain ⟨⟨fraction, _⟩, second, read⟩ := Option.bind_eq_some_iff.mp read
  obtain ⟨⟨exponent, _⟩, third, shape⟩ := Option.bind_eq_some_iff.mp read
  cases shape
  intro byte member
  simp only [mem_append] at member
  rcases member with ((sign | digit) | digit) | digit
  · exact minus byte sign
  · exact scanInteger_ascii first byte digit
  · exact scanFraction_ascii second byte digit
  · exact scanExponent_ascii third byte digit

theorem escapeByte_ascii (ascii : byte.toNat < 0x80) :
    ∀ other ∈ escapeByte byte, other.toNat < 0x80 := by
  have digit : ∀ value, value < 16 → (hexByte value).toNat < 0x80 := by decide
  unfold escapeByte
  split
  · simpa using ascii
  split
  · exact ascii_of_all (by decide)
  split
  · exact ascii_of_all (by decide)
  split
  · exact ascii_of_all (by decide)
  split
  · exact ascii_of_all (by decide)
  split
  · exact ascii_of_all (by decide)
  split
  · rename_i low
    simp only [forall_mem_cons]
    exact ⟨by decide, by decide, by decide, by decide, digit _ (by omega),
      digit _ (by omega), nofun⟩
  · simpa using ascii

/-- A byte that is not ASCII is written as it stands. -/
theorem escapeByte_high (high : 0x80 ≤ byte.toNat) : escapeByte byte = [byte] := by
  have other : ∀ value : UInt8, value.toNat < 0x80 → byte ≠ value := by
    rintro value low rfl
    omega
  unfold escapeByte
  rw [if_neg, if_neg (other _ (by decide)), if_neg (other _ (by decide)),
    if_neg (other _ (by decide)), if_neg (other _ (by decide)), if_neg (other _ (by decide)),
    if_neg (by omega)]
  rintro (same | same)
  · exact other _ (by decide) same
  · exact other _ (by decide) same

theorem escapeChar_valid {char : List UInt8} (one : isChar char = true) :
    Valid (char.flatMap escapeByte) := by
  obtain ⟨lead, rest, rfl, _, tails, length⟩ := Utf8.isChar_shape one
  by_cases ascii : lead.toNat < 0x80
  · have single : rest = [] := by
      rw [Utf8.width, if_pos ascii, length_cons] at length
      exact length_eq_zero_iff.mp (by omega)
    rw [single, flatMap_singleton]
    exact valid_ascii (escapeByte_ascii ascii)
  · have same : (lead :: rest).flatMap escapeByte = lead :: rest := by
      have each : ∀ byte ∈ lead :: rest, escapeByte byte = [byte] := by
        intro byte member
        apply escapeByte_high
        rcases mem_cons.mp member with rfl | tail
        · omega
        · have high := tails byte tail
          simp only [isTail, Bool.and_eq_true, decide_eq_true_eq] at high
          exact high.1
      rw [flatMap_congr each, flatMap_singleton']
    rw [same]
    have char := Valid.cons one Valid.nil
    rwa [append_nil] at char

theorem dumpString_valid {value : List UInt8} (valid : Valid value) : Valid (dumpString value) := by
  have body : Valid (value.flatMap escapeByte) := by
    induction valid using Valid.chars with
    | nil => exact .nil
    | cons one _ ih =>
      rw [flatMap_append]
      exact (escapeChar_valid one).append ih
  have quote : Valid [0x22] := by decide
  exact (quote.append body).append quote

mutual

/-- The text of a value with well-formed strings is well-formed. -/
theorem dump_valid (numbers : Numbers Num) :
    (value : Json Num) → Sound value → Valid (dump numbers.print value)
  | .null, _ => by rw [dump]; decide
  | .bool true, _ => by rw [dump]; decide
  | .bool false, _ => by rw [dump]; decide
  | .number value, _ => by
    rw [dump]
    exact valid_ascii (scanNumber_ascii (numbers.scans value))
  | .string value, sound => by
    rw [dump]
    exact dumpString_valid (sound value mem_cons_self)
  | .array items, sound => by
    rw [dump]
    have open_ : Valid [0x5B] := by decide
    have close : Valid [0x5D] := by decide
    exact (open_.append (dumpItems_valid numbers items sound)).append close
  | .object members, sound => by
    rw [dump]
    have open_ : Valid [0x7B] := by decide
    have close : Valid [0x7D] := by decide
    exact (open_.append (dumpMembers_valid numbers members sound)).append close

theorem dumpItems_valid (numbers : Numbers Num) :
    (items : List (Json Num)) → (∀ text ∈ itemStrings items, Valid text) →
      Valid (dumpItems numbers.print items)
  | [], _ => .nil
  | [item], sound => by
    rw [dumpItems]
    apply dump_valid numbers item
    intro text member
    exact sound text (mem_append_left _ member)
  | item :: next :: items, sound => by
    rw [dumpItems]
    have comma : Valid [0x2C] := by decide
    refine (dump_valid numbers item ?_).append
      (comma.append (dumpItems_valid numbers (next :: items) ?_))
    · intro text member
      exact sound text (mem_append_left _ member)
    · intro text member
      exact sound text (mem_append_right _ member)

theorem dumpMembers_valid (numbers : Numbers Num) :
    (members : List (List UInt8 × Json Num)) → (∀ text ∈ memberStrings members, Valid text) →
      Valid (dumpMembers numbers.print members)
  | [], _ => .nil
  | [(key, value)], sound => by
    rw [dumpMembers]
    have colon : Valid [0x3A] := by decide
    refine (dumpString_valid (sound key mem_cons_self)).append
      (colon.append (dump_valid numbers value ?_))
    intro text member
    exact sound text (mem_cons_of_mem _ (mem_append_left _ member))
  | (key, value) :: next :: members, sound => by
    rw [dumpMembers]
    have colon : Valid [0x3A] := by decide
    have comma : Valid [0x2C] := by decide
    refine ((dumpString_valid (sound key mem_cons_self)).append
      (colon.append (dump_valid numbers value ?_))).append
      (comma.append (dumpMembers_valid numbers (next :: members) ?_))
    · intro text member
      exact sound text (mem_cons_of_mem _ (mem_append_left _ member))
    · intro text member
      exact sound text (mem_cons_of_mem _ (mem_append_right _ member))

end

end Writing

end Iian.Lib.Json
