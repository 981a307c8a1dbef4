import Mathlib.Data.List.DropRight

/- Well-formed UTF-8: the encodings of one character, texts as sequences of them, and where
a text may be cut. -/
namespace Iian.Lib.Utf8

open List

/-- A byte that continues a character. -/
def isTail (byte : UInt8) : Bool := 0x80 ≤ byte.toNat && byte.toNat < 0xC0

/-- The encodings of a single character: no overlong form, no surrogate and nothing above
U+10FFFF. -/
def isChar : List UInt8 → Bool
  | [a] => a.toNat < 0x80
  | [a, b] => 0xC2 ≤ a.toNat && a.toNat < 0xE0 && isTail b
  | [a, b, c] => 0xE0 ≤ a.toNat && a.toNat < 0xF0 && isTail b && isTail c &&
      (a != 0xE0 || 0xA0 ≤ b.toNat) && (a != 0xED || b.toNat < 0xA0)
  | [a, b, c, d] => 0xF0 ≤ a.toNat && a.toNat < 0xF5 && isTail b && isTail c && isTail d &&
      (a != 0xF0 || 0x90 ≤ b.toNat) && (a != 0xF4 || b.toNat < 0x90)
  | _ => false

/-- A text is a sequence of characters. -/
def Valid (text : List UInt8) : Prop :=
  ∃ chars : List (List UInt8), chars.flatten = text ∧ ∀ char ∈ chars, isChar char = true

/-- Decides `Valid`, byte by byte; the first argument holds the bytes of the character being
read. -/
def checkFrom : List UInt8 → List UInt8 → Bool
  | char, [] => char.isEmpty
  | char, byte :: rest =>
    if isChar (char ++ [byte]) then checkFrom [] rest else checkFrom (char ++ [byte]) rest

/-- The number of bytes of a character that starts with `lead`. -/
def width (lead : UInt8) : Nat :=
  if lead.toNat < 0x80 then 1 else if lead.toNat < 0xE0 then 2 else if lead.toNat < 0xF0 then 3
  else 4

theorem Valid.nil : Valid [] := ⟨[], rfl, by simp⟩

theorem Valid.cons {char rest : List UInt8} (first : isChar char = true) (valid : Valid rest) :
    Valid (char ++ rest) := by
  obtain ⟨chars, same, all⟩ := valid
  refine ⟨char :: chars, by simp [same], ?_⟩
  exact forall_mem_cons.mpr ⟨first, all⟩

variable {text char front back : List UInt8}

/-- Induction over the characters of a text. -/
@[elab_as_elim]
theorem Valid.chars {motive : ∀ text, Valid text → Prop} (nil : motive [] Valid.nil)
    (cons : ∀ {char rest} (one : isChar char = true) (valid : Valid rest), motive rest valid →
      motive (char ++ rest) (valid.cons one)) (valid : Valid text) : motive text valid := by
  obtain ⟨chars, rfl, all⟩ := valid
  induction chars with
  | nil => exact nil
  | cons char chars ih =>
    obtain ⟨one, others⟩ := forall_mem_cons.mp all
    exact cons one ⟨chars, rfl, others⟩ (ih others)

theorem Valid.cases (valid : Valid text) :
    text = [] ∨ ∃ char rest, text = char ++ rest ∧ isChar char = true ∧ Valid rest := by
  cases valid using Valid.chars with
  | nil => exact .inl rfl
  | cons one valid => exact .inr ⟨_, _, rfl, one, valid⟩

/-- The same from the other end. -/
theorem Valid.last (valid : Valid text) (some : text ≠ []) :
    ∃ front char, text = front ++ char ∧ isChar char = true := by
  obtain ⟨chars, rfl, all⟩ := valid
  rcases eq_nil_or_concat chars with none | ⟨front, char, rfl⟩
  · rw [none] at some
    exact (some rfl).elim
  · refine ⟨front.flatten, char, by simp, all char (by simp)⟩

/-- A character is a lead byte and as many tail bytes as the lead byte announces. -/
theorem isChar_shape (one : isChar char = true) :
    ∃ lead rest, char = lead :: rest ∧ isTail lead = false ∧ (∀ byte ∈ rest, isTail byte = true) ∧
      char.length = width lead := by
  match char with
  | [] => cases one
  | [a] =>
    simp only [isChar, decide_eq_true_eq] at one
    refine ⟨a, [], rfl, ?_, by simp, ?_⟩
    · simp [isTail]
      omega
    · simp [width, one]
  | [a, b] =>
    simp only [isChar, Bool.and_eq_true, decide_eq_true_eq] at one
    obtain ⟨⟨low, high⟩, second⟩ := one
    refine ⟨a, [b], rfl, ?_, by simpa using second, ?_⟩
    · simp [isTail]
      omega
    · simp [width, show ¬ a.toNat < 0x80 by omega, high]
  | [a, b, c] =>
    simp only [isChar, Bool.and_eq_true, decide_eq_true_eq] at one
    obtain ⟨⟨⟨⟨⟨low, high⟩, second⟩, third⟩, _⟩, _⟩ := one
    refine ⟨a, [b, c], rfl, ?_, by simp [second, third], ?_⟩
    · simp [isTail]
      omega
    · simp [width, show ¬ a.toNat < 0x80 by omega, Nat.not_lt.mpr low, high]
  | [a, b, c, d] =>
    simp only [isChar, Bool.and_eq_true, decide_eq_true_eq] at one
    obtain ⟨⟨⟨⟨⟨⟨low, _⟩, second⟩, third⟩, fourth⟩, _⟩, _⟩ := one
    refine ⟨a, [b, c, d], rfl, ?_, by simp [second, third, fourth], ?_⟩
    · simp [isTail]
      omega
    · simp [width, show ¬ a.toNat < 0x80 by omega, show ¬ a.toNat < 0xE0 by omega,
        Nat.not_lt.mpr low]
  | a :: b :: c :: d :: e :: rest => cases one

/-- The bytes a character may start with. -/
theorem isChar_lead {lead : UInt8} {rest : List UInt8} (one : isChar (lead :: rest) = true) :
    lead.toNat < 0x80 ∨ 0xC2 ≤ lead.toNat ∧ lead.toNat < 0xF5 := by
  match rest with
  | [] =>
    simp only [isChar, decide_eq_true_eq] at one
    omega
  | [b] =>
    simp only [isChar, Bool.and_eq_true, decide_eq_true_eq] at one
    omega
  | [b, c] =>
    simp only [isChar, Bool.and_eq_true, decide_eq_true_eq] at one
    omega
  | [b, c, d] =>
    simp only [isChar, Bool.and_eq_true, decide_eq_true_eq] at one
    omega
  | b :: c :: d :: e :: rest => cases one

theorem valid_of_checkFrom (checked : checkFrom char text = true) : Valid (char ++ text) := by
  induction text generalizing char with
  | nil =>
    rw [checkFrom, List.isEmpty_iff] at checked
    rw [checked]
    exact .nil
  | cons byte rest ih =>
    rw [append_cons]
    rw [checkFrom] at checked
    split at checked
    · rename_i one
      exact .cons one (ih checked)
    · exact ih checked

/-- No character starts with a whole one. -/
theorem checkFrom_char (one : isChar char = true) (rest : List UInt8) :
    checkFrom [] (char ++ rest) = checkFrom [] rest := by
  match char with
  | [] => cases one
  | [a] => simp [checkFrom, one]
  | [a, b] =>
    have low := one
    simp only [isChar, Bool.and_eq_true, decide_eq_true_eq] at low
    have first : isChar [a] = false := by simp [isChar]; omega
    simp [checkFrom, one, first]
  | [a, b, c] =>
    have low := one
    simp only [isChar, Bool.and_eq_true, decide_eq_true_eq] at low
    have first : isChar [a] = false := by simp [isChar]; omega
    have second : isChar [a, b] = false := by simp [isChar]; omega
    simp [checkFrom, one, first, second]
  | [a, b, c, d] =>
    have low := one
    simp only [isChar, Bool.and_eq_true, decide_eq_true_eq] at low
    have first : isChar [a] = false := by simp [isChar]; omega
    have second : isChar [a, b] = false := by simp [isChar]; omega
    have third : isChar [a, b, c] = false := by
      simp only [isChar, Nat.not_lt.mpr low.1.1.1.1.1.1, decide_false, Bool.and_false,
        Bool.false_and]
    simp [checkFrom, one, first, second, third]
  | a :: b :: c :: d :: e :: more => cases one

theorem checkFrom_valid (valid : Valid front) (back : List UInt8) :
    checkFrom [] (front ++ back) = checkFrom [] back := by
  induction valid using Valid.chars with
  | nil => rfl
  | cons one _ ih => rw [append_assoc, checkFrom_char one, ih]

theorem checkFrom_of_valid (valid : Valid text) : checkFrom [] text = true := by
  rw [← append_nil text, checkFrom_valid valid]
  rfl

theorem checkFrom_iff : checkFrom [] text = true ↔ Valid text :=
  ⟨valid_of_checkFrom, checkFrom_of_valid⟩

instance (text : List UInt8) : Decidable (Valid text) :=
  decidable_of_iff (checkFrom [] text = true) checkFrom_iff

theorem Valid.append (first : Valid front) (second : Valid back) : Valid (front ++ back) := by
  obtain ⟨chars, rfl, all⟩ := first
  obtain ⟨others, rfl, rest⟩ := second
  refine ⟨chars ++ others, flatten_append, ?_⟩
  intro char member
  exact (mem_append.mp member).elim (all char) (rest char)

theorem Valid.flatMap {α : Type} {items : List α} {text : α → List UInt8}
    (all : ∀ item ∈ items, Valid (text item)) : Valid (items.flatMap text) := by
  induction items with
  | nil => exact .nil
  | cons item items ih =>
    rw [flatMap_cons]
    exact (all item mem_cons_self).append
      (ih fun other member => all other (mem_cons_of_mem _ member))

theorem ascii_of_all (all : text.all (fun byte => byte.toNat < 0x80) = true) :
    ∀ byte ∈ text, byte.toNat < 0x80 :=
  fun byte member => of_decide_eq_true (all_eq_true.mp all byte member)

theorem valid_ascii (ascii : ∀ byte ∈ text, byte.toNat < 0x80) : Valid text := by
  induction text with
  | nil => exact .nil
  | cons byte text ih =>
    apply @Valid.cons [byte] text
    · simpa [isChar] using ascii byte mem_cons_self
    · exact ih fun other member => ascii other (mem_cons_of_mem _ member)

/-- A text may be cut before every byte that starts a character. -/
theorem Valid.split {text : List UInt8} (valid : Valid text) {place : Nat}
    (starts : ∀ byte, text[place]? = some byte → isTail byte = false) :
    Valid (text.take place) ∧ Valid (text.drop place) := by
  induction valid using Valid.chars generalizing place with
  | nil => simp [Valid.nil]
  | @cons char behind one valid ih =>
    by_cases inside : place < char.length
    · obtain ⟨lead, rest, same, _, tails, _⟩ := isChar_shape one
      have first : place = 0 := by
        by_contra later
        obtain ⟨byte, found⟩ : ∃ byte, char[place]? = some byte := ⟨_, getElem?_eq_getElem inside⟩
        have start := starts byte (by rw [getElem?_append_left inside]; exact found)
        obtain ⟨before, rfl⟩ := Nat.exists_eq_succ_of_ne_zero later
        rw [same, getElem?_cons_succ] at found
        rw [tails byte (mem_of_getElem? found)] at start
        cases start
      subst first
      exact ⟨.nil, .cons one valid⟩
    · have later : Valid (behind.take (place - char.length)) ∧
          Valid (behind.drop (place - char.length)) := by
        apply ih
        intro byte found
        apply starts byte
        rw [getElem?_append_right (Nat.le_of_not_lt inside)]
        exact found
      rw [take_append, drop_append, take_of_length_le (by omega),
        drop_of_length_le (by omega), nil_append]
      exact ⟨.cons one later.1, later.2⟩

/-- A text does not start with a tail byte. -/
theorem Valid.head {lead : UInt8} {rest : List UInt8} (valid : Valid (lead :: rest)) :
    isTail lead = false := by
  rcases valid.cases with none | ⟨char, more, same, one, _⟩
  · cases none
  obtain ⟨first, tails, rfl, start, _, _⟩ := isChar_shape one
  rw [cons_append, List.cons.injEq] at same
  rw [same.1]
  exact start

/-- What stands before a text within a text is a text. -/
theorem Valid.before {middle : List UInt8} (whole : Valid (front ++ (middle ++ back)))
    (inner : Valid middle) (some : middle ≠ []) : Valid front := by
  obtain ⟨lead, rest, rfl⟩ := exists_cons_of_ne_nil some
  have parts := @Valid.split _ whole front.length (by
    intro byte found
    rw [getElem?_append_right (Nat.le_refl _), Nat.sub_self] at found
    cases found
    exact inner.head)
  rw [take_left] at parts
  exact parts.1

/-- What follows a text within a text is a text. -/
theorem Valid.cancel (first : Valid front) (whole : Valid (front ++ back)) : Valid back := by
  rw [← checkFrom_iff, checkFrom_valid first, checkFrom_iff] at whole
  exact whole

/-- A place at which a text can be cut. -/
def Cut (text : List UInt8) (place : Nat) : Prop := Valid (text.take place)

theorem Cut.drop (valid : Valid text) {place : Nat} (cut : Cut text place) :
    Valid (text.drop place) := by
  rw [← take_append_drop place text] at valid
  exact cut.cancel valid

/-- The part of a text between two cuts. -/
theorem Cut.between {first second : Nat} (start : Cut text first) (stop : Cut text second) :
    Valid ((text.drop first).take (second - first)) := by
  rcases Nat.le_total first second with order | order
  · apply Valid.cancel start
    have parts : text.take first ++ (text.drop first).take (second - first) = text.take second := by
      rw [← take_add, Nat.add_sub_cancel' order]
    rw [parts]
    exact stop
  · rw [Nat.sub_eq_zero_of_le order, take_zero]
    exact .nil

/-- A text can be cut before an ASCII byte and behind it. -/
theorem Valid.cut_ascii {text : List UInt8} (valid : Valid text) {place : Nat} {byte : UInt8}
    (found : text[place]? = some byte) (ascii : byte.toNat < 0x80) :
    Cut text place ∧ Cut text (place + 1) := by
  have before : Cut text place := by
    apply (valid.split _).1
    intro other here
    rw [found] at here
    cases here
    simp [isTail]
    omega
  refine ⟨before, ?_⟩
  rw [Cut, take_add_one, found]
  exact before.append (valid_ascii (by simpa using ascii))

theorem Valid.dropWhile (valid : Valid text) {skip : UInt8 → Bool}
    (ascii : ∀ byte, skip byte = true → byte.toNat < 0x80) : Valid (text.dropWhile skip) := by
  induction text with
  | nil => exact valid
  | cons byte rest ih =>
    rw [dropWhile_cons]
    split
    · rename_i skipped
      apply ih
      exact Cut.drop valid (@Valid.cut_ascii _ valid 0 _ rfl (ascii byte skipped)).2
    · exact valid

theorem Valid.rdropWhile (valid : Valid text) {skip : UInt8 → Bool}
    (ascii : ∀ byte, skip byte = true → byte.toNat < 0x80) : Valid (text.rdropWhile skip) := by
  induction text using List.reverseRecOn with
  | nil => exact valid
  | append_singleton front byte ih =>
    rw [rdropWhile_concat]
    split
    · rename_i skipped
      apply ih
      have here : (front ++ [byte])[front.length]? = some byte := by simp
      simpa [Cut] using (valid.cut_ascii here (ascii byte skipped)).1
    · exact valid

end Iian.Lib.Utf8
