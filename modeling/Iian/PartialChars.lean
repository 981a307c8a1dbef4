import Iian.GrammarFilter
import Mathlib.Tactic.Ring

/- What `llama_grammar_match_partial_char` says about a character that a token has left
incomplete, against the code points that it can be completed to. The function tests intervals
for overlap. -/
namespace Iian

open List

namespace PartialUtf8

variable (utf8 : PartialUtf8)

/-- The smallest code point of a sequence with this many bytes behind the first one. Smaller ones
would be overlong, which UTF-8 excludes. -/
def minCodePoint : Nat → Nat
  | 1 => 0x80
  | 2 => 0x800
  | 3 => 0x10000
  | _ => 0

/-- The bytes that are missing can follow so that the decoder makes `chr` of the sequence. -/
def Completes (chr : Nat) : Prop :=
  (∃ bytes : Bytes, (∀ byte ∈ bytes, byte >>> 6 = 2) ∧ (bytes.length : Int) = utf8.nRemain ∧
    decodeUtf8 bytes utf8 = ([chr, 0], ⟨chr, 0⟩)) ∧ minCodePoint utf8.nRemain.toNat ≤ chr

/-- The completions are an interval. -/
def first : Nat :=
  max (utf8.value * 64 ^ utf8.nRemain.toNat) (minCodePoint utf8.nRemain.toNat)

def last : Nat := (utf8.value + 1) * 64 ^ utf8.nRemain.toNat - 1

end PartialUtf8

theorem continuation_bits : ∀ digit < 64, UInt8.ofNat (0x80 + digit) >>> 6 = 2 ∧
    (UInt8.ofNat (0x80 + digit) &&& 0x3F).toNat = digit := by decide

theorem continuation_lt (byte : UInt8) : (byte &&& 0x3F).toNat < 64 := by
  have masked : (byte &&& 0x3F).toNat = byte.toNat % 64 := by
    rw [UInt8.toNat_and]
    exact Nat.and_two_pow_sub_one_eq_mod byte.toNat 6
  omega

theorem resumeUtf8_value {bytes : Bytes} (tails : ∀ byte ∈ bytes, byte >>> 6 = 2) (value : Nat) :
    ∃ chr, resumeUtf8 bytes value bytes.length = some ([], chr, 0) ∧
      chr / 64 ^ bytes.length = value := by
  induction bytes generalizing value with
  | nil => exact ⟨value, rfl, by simp⟩
  | cons byte bytes ih =>
    obtain ⟨here, tails⟩ := forall_mem_cons.mp tails
    obtain ⟨chr, resumed, high⟩ := ih tails (value * 64 + (byte &&& 0x3F).toNat)
    refine ⟨chr, ?_, ?_⟩
    · rw [resumeUtf8, if_neg (by simp), if_neg (not_not.mpr here), length_cons]
      simpa using resumed
    · have low := continuation_lt byte
      rw [length_cons, pow_succ, ← Nat.div_div_eq_div_mul, high]
      omega

/-- Every number with the right high bits is reached. -/
theorem resumeUtf8_reaches (count : Nat) {chr value : Nat} (high : chr / 64 ^ count = value) :
    ∃ bytes : Bytes, (∀ byte ∈ bytes, byte >>> 6 = 2) ∧ bytes.length = count ∧
      resumeUtf8 bytes value count = some ([], chr, 0) := by
  induction count generalizing value with
  | zero =>
    refine ⟨[], by simp, rfl, ?_⟩
    rw [pow_zero, Nat.div_one] at high
    rw [high]
    rfl
  | succ count ih =>
    obtain ⟨bytes, tails, length, resumed⟩ := ih (Eq.refl (chr / 64 ^ count))
    obtain ⟨marked, digit⟩ := continuation_bits (chr / 64 ^ count % 64) (Nat.mod_lt _ (by decide))
    refine ⟨UInt8.ofNat (0x80 + chr / 64 ^ count % 64) :: bytes,
      forall_mem_cons.mpr ⟨marked, tails⟩, by rw [length_cons, length], ?_⟩
    rw [pow_succ, ← Nat.div_div_eq_div_mul] at high
    have next : value * 64 + chr / 64 ^ count % 64 = chr / 64 ^ count := by omega
    rw [resumeUtf8, if_neg (by omega), if_neg (not_not.mpr marked), digit, next]
    simpa using resumed

theorem takeWhile_continuation {bytes : Bytes} (tails : ∀ byte ∈ bytes, byte >>> 6 = 2) :
    bytes.takeWhile (· ≠ 0) = bytes := by
  have nonzero : ∀ byte ∈ bytes, decide (byte ≠ 0) = true := by
    intro byte member
    rw [decide_eq_true_eq]
    rintro rfl
    exact absurd (tails 0 member) (by decide)
  have whole := @takeWhile_append_of_pos _ _ bytes [] nonzero
  rw [append_nil, takeWhile_nil, append_nil] at whole
  exact whole

namespace PartialUtf8

variable {utf8 : PartialUtf8} {chr : Nat}

theorem completes_iff (going : 0 < utf8.nRemain) :
    utf8.Completes chr ↔ utf8.first ≤ chr ∧ chr ≤ utf8.last := by
  have count : ((utf8.nRemain.toNat : Nat) : Int) = utf8.nRemain := by omega
  have positive : 0 < 64 ^ utf8.nRemain.toNat := Nat.pow_pos (by decide)
  have range : (utf8.first ≤ chr ∧ chr ≤ utf8.last) ↔
      chr / 64 ^ utf8.nRemain.toNat = utf8.value ∧ minCodePoint utf8.nRemain.toNat ≤ chr := by
    rw [first, last, max_le_iff, Nat.div_eq_iff positive, Nat.le_sub_one_iff_lt]
    · rw [add_mul, one_mul]
      omega
    · exact Nat.mul_pos (Nat.succ_pos _) positive
  rw [range, Completes]
  refine and_congr_left (fun _ => ⟨?_, ?_⟩)
  · rintro ⟨bytes, tails, length, decoded⟩
    obtain ⟨other, resumed, high⟩ := resumeUtf8_value tails utf8.value
    rw [length] at resumed
    rw [decodeUtf8, takeWhile_continuation tails, resumed] at decoded
    dsimp only at decoded
    rw [if_pos ⟨going, rfl⟩] at decoded
    cases decoded
    have same : bytes.length = utf8.nRemain.toNat := by omega
    rw [← same]
    exact high
  · intro high
    obtain ⟨bytes, tails, length, resumed⟩ := resumeUtf8_reaches utf8.nRemain.toNat high
    refine ⟨bytes, tails, by omega, ?_⟩
    rw [count] at resumed
    rw [decodeUtf8, takeWhile_continuation tails, resumed]
    dsimp only
    rw [if_pos ⟨going, rfl⟩]
    rfl

/-- There are completions unless the sequence is invalid or overlong. -/
theorem first_le_last (valid : ¬ (utf8.nRemain = 1 ∧ utf8.value < 2)) :
    utf8.first ≤ utf8.last := by
  have positive : 0 < 64 ^ utf8.nRemain.toNat := Nat.pow_pos (by decide)
  rw [last, Nat.le_sub_one_iff_lt (Nat.mul_pos (Nat.succ_pos _) positive), first, max_lt_iff]
  refine ⟨Nat.mul_lt_mul_of_pos_right (Nat.lt_succ_self _) positive, ?_⟩
  generalize count : utf8.nRemain.toNat = n
  match n with
  | 0 => simp [minCodePoint]
  | 1 =>
    have low : 2 ≤ utf8.value := by omega
    change 0x80 < (utf8.value + 1) * 64 ^ 1
    omega
  | 2 =>
    change 0x800 < (utf8.value + 1) * 64 ^ 2
    omega
  | 3 =>
    change 0x10000 < (utf8.value + 1) * 64 ^ 3
    omega
  | n + 4 =>
    change 0 < (utf8.value + 1) * 64 ^ (n + 4)
    exact Nat.mul_pos (Nat.succ_pos _) (Nat.pow_pos (by decide))

theorem not_completes (invalid : utf8.nRemain < 0 ∨ (utf8.nRemain = 1 ∧ utf8.value < 2)) :
    ¬ utf8.Completes chr := by
  intro completes
  rcases invalid with negative | ⟨one, small⟩
  · obtain ⟨bytes, _, length, _⟩ := completes.1
    omega
  have high := ((completes_iff (by omega)).mp completes).2
  have low := completes.2
  rw [last, one] at high
  rw [one] at low
  change chr ≤ (utf8.value + 1) * 64 ^ 1 - 1 at high
  change 0x80 ≤ chr at low
  omega

end PartialUtf8

namespace CharItem

/-- A range whose ends are in the wrong order contains nothing, but the test for overlap finds it
when both its ends are completions. -/
def Misread (utf8 : PartialUtf8) : CharItem → Prop
  | .any => False
  | .range low high => high < low ∧ utf8.Completes low ∧ utf8.Completes high

theorem meets_iff {utf8 : PartialUtf8} (going : 0 < utf8.nRemain)
    (some : utf8.first ≤ utf8.last) (item : CharItem) :
    item.meets utf8.first utf8.last = true ↔
      item.Misread utf8 ∨ ∃ chr, utf8.Completes chr ∧ item.contains chr = true := by
  cases item with
  | any => exact iff_of_true rfl (.inr ⟨_, (PartialUtf8.completes_iff going).mpr ⟨le_refl _, some⟩, rfl⟩)
  | range low high =>
    simp only [meets, contains, Misread, Bool.and_eq_true, decide_eq_true_eq,
      PartialUtf8.completes_iff going]
    constructor
    · rintro ⟨below, above⟩
      rcases Nat.lt_or_ge high low with reversed | ordered
      · exact .inl ⟨reversed, by omega, by omega⟩
      · exact .inr ⟨max low utf8.first, by omega, by omega⟩
    · rintro (⟨_, _, _⟩ | ⟨chr, _, _⟩) <;> omega

end CharItem

namespace GrammarRules

variable {rules : GrammarRules} {pos : GrammarPos} {utf8 : PartialUtf8}

theorem partialRange_low (going : 0 < utf8.nRemain)
    (valid : ¬ (utf8.nRemain = 1 ∧ utf8.value < 2)) :
    (if utf8.value <<< (6 * utf8.nRemain.toNat) = 0 then
      if utf8.nRemain = 2 then 1 <<< 11 else if utf8.nRemain = 3 then 1 <<< 16
        else utf8.value <<< (6 * utf8.nRemain.toNat)
      else utf8.value <<< (6 * utf8.nRemain.toNat)) = utf8.first := by
  have bits : utf8.value <<< (6 * utf8.nRemain.toNat) = utf8.value * 64 ^ utf8.nRemain.toNat := by
    rw [Nat.shiftLeft_eq, Nat.pow_mul]
  rw [bits, PartialUtf8.first]
  obtain ⟨n, count⟩ : ∃ n : Nat, utf8.nRemain = n := ⟨utf8.nRemain.toNat, by omega⟩
  have same : utf8.nRemain.toNat = n := by omega
  rw [same, count]
  match n with
  | 0 => omega
  | 1 =>
    have low : 2 ≤ utf8.value := by omega
    simp only [PartialUtf8.minCodePoint]
    split <;> omega
  | 2 =>
    simp only [PartialUtf8.minCodePoint]
    split <;> simp <;> omega
  | 3 =>
    simp only [PartialUtf8.minCodePoint]
    split <;> simp <;> omega
  | n + 4 =>
    have other : ¬ (((n + 4 : Nat) : Int) = 2) ∧ ¬ (((n + 4 : Nat) : Int) = 3) := by omega
    rw [if_neg other.1, if_neg other.2, ite_self]
    simp [PartialUtf8.minCodePoint]

theorem partialRange_high :
    utf8.value <<< (6 * utf8.nRemain.toNat) ||| (1 <<< (6 * utf8.nRemain.toNat) - 1) = utf8.last := by
  have power : 1 <<< (6 * utf8.nRemain.toNat) = 64 ^ utf8.nRemain.toNat := by
    rw [Nat.shiftLeft_eq, Nat.pow_mul, one_mul]
  have positive : 0 < 64 ^ utf8.nRemain.toNat := Nat.pow_pos (by decide)
  rw [← Nat.shiftLeft_add_eq_or_of_lt, power, Nat.shiftLeft_eq, Nat.pow_mul, PartialUtf8.last,
    add_mul, one_mul]
  · change utf8.value * 64 ^ utf8.nRemain.toNat + _ = utf8.value * 64 ^ utf8.nRemain.toNat + _ - 1
    omega
  · rw [power, Nat.pow_mul]
    change 64 ^ utf8.nRemain.toNat - 1 < 64 ^ utf8.nRemain.toNat
    omega

/-- The answer in terms of the completions. -/
theorem matchPartialChar_eq (char : (rules.type pos).isChar = true) (going : utf8.nRemain ≠ 0) :
    ∃ found, rules.matchPartialChar pos utf8 = .ok found ∧
      (found = true ↔ (∃ chr, utf8.Completes chr) ∧
        ((∃ item ∈ (charItems (rules.tail pos)).1, item.Misread utf8 ∨
          ∃ chr, utf8.Completes chr ∧ item.contains chr = true) ↔
            (rules.type pos).isPositiveChar = true)) := by
  unfold matchPartialChar
  rw [if_pos char]
  by_cases invalid : utf8.nRemain < 0 ∨ (utf8.nRemain = 1 ∧ utf8.value < 2)
  · rw [if_pos invalid]
    refine ⟨false, rfl, iff_of_false (by simp) ?_⟩
    rintro ⟨⟨chr, completes⟩, _⟩
    exact PartialUtf8.not_completes invalid completes
  · rw [if_neg invalid]
    rw [not_or] at invalid
    have positive : 0 < utf8.nRemain := by omega
    have some := PartialUtf8.first_le_last invalid.2
    have exists_completion : ∃ chr, utf8.Completes chr :=
      ⟨_, (PartialUtf8.completes_iff positive).mpr ⟨le_refl _, some⟩⟩
    dsimp only
    rw [partialRange_low positive invalid.2, partialRange_high]
    refine ⟨_, rfl, ?_⟩
    rw [and_iff_right exists_completion, beq_iff_eq, Bool.eq_iff_iff, any_eq_true]
    simp only [CharItem.meets_iff positive some]

/-- When the test for overlap is right: for an element that lists the characters it takes, unless
only ranges with their ends in the wrong order have been found; for one that lists those it
refuses, if it refuses none of the completions or all of them. -/
def Judged (rules : GrammarRules) (pos : GrammarPos) (utf8 : PartialUtf8) : Prop :=
  let items := (charItems (rules.tail pos)).1
  (∃ chr, utf8.Completes chr) →
    if (rules.type pos).isPositiveChar then
      (∃ item ∈ items, item.Misread utf8) →
        ∃ chr, utf8.Completes chr ∧ items.any (CharItem.contains chr) = true
    else
      (∃ item ∈ items, item.Misread utf8 ∨ ∃ chr, utf8.Completes chr ∧ item.contains chr = true) →
        ∀ chr, utf8.Completes chr → items.any (CharItem.contains chr) = true

theorem matchPartialChar_exact_iff (char : (rules.type pos).isChar = true)
    (going : utf8.nRemain ≠ 0) :
    (∃ found, rules.matchPartialChar pos utf8 = .ok found ∧
      (found = true ↔ ∃ chr, utf8.Completes chr ∧ rules.takes pos chr = true)) ↔
      rules.Judged pos utf8 := by
  obtain ⟨found, answered, tested⟩ := matchPartialChar_eq char going
  have unique : (∃ found, rules.matchPartialChar pos utf8 = .ok found ∧
      (found = true ↔ ∃ chr, utf8.Completes chr ∧ rules.takes pos chr = true)) ↔
      (found = true ↔ ∃ chr, utf8.Completes chr ∧ rules.takes pos chr = true) := by
    constructor
    · rintro ⟨other, same, exact⟩
      rw [answered] at same
      cases same
      exact exact
    · exact fun exact => ⟨found, answered, exact⟩
  rw [unique, tested]
  unfold Judged takes
  dsimp only
  generalize (charItems (rules.tail pos)).1 = items
  have listed : (∃ item ∈ items, item.Misread utf8 ∨
        ∃ chr, utf8.Completes chr ∧ item.contains chr = true) ↔
      (∃ item ∈ items, item.Misread utf8) ∨
        ∃ chr, utf8.Completes chr ∧ items.any (CharItem.contains chr) = true := by
    simp only [any_eq_true, and_or_left, exists_or]
    refine or_congr_right ⟨?_, ?_⟩
    · rintro ⟨item, member, chr, completes, inside⟩
      exact ⟨chr, completes, item, member, inside⟩
    · rintro ⟨chr, completes, item, member, inside⟩
      exact ⟨item, member, chr, completes, inside⟩
  rw [listed]
  cases (rules.type pos).isPositiveChar with
  | true =>
    simp only [if_true, iff_true, beq_true]
    constructor
    · exact fun exact some misread => exact.mp ⟨some, .inl misread⟩
    intro judged
    constructor
    · rintro ⟨some, misread | taken⟩
      · exact judged some misread
      · exact taken
    · rintro ⟨chr, completes, inside⟩
      exact ⟨⟨chr, completes⟩, .inr ⟨chr, completes, inside⟩⟩
  | false =>
    simp only [Bool.false_eq_true, if_false, iff_false, beq_false, Bool.not_eq_true']
    constructor
    · intro exact some found chr completes
      by_contra outside
      rw [Bool.not_eq_true] at outside
      exact (exact.mpr ⟨chr, completes, outside⟩).2 found
    · intro judged
      constructor
      · rintro ⟨⟨chr, completes⟩, missed⟩
        refine ⟨chr, completes, Bool.eq_false_iff.mpr ?_⟩
        exact fun inside => missed (.inr ⟨chr, completes, inside⟩)
      · rintro ⟨chr, completes, outside⟩
        refine ⟨⟨chr, completes⟩, ?_⟩
        intro found
        have inside := judged ⟨chr, completes⟩ found chr completes
        rw [outside] at inside
        cases inside

/-- The rule `[é]` and its opposite `[^é]`. -/
def accented (type : GreType) : GrammarRules := [[⟨type, 0xE9⟩, ⟨.endRule, 0⟩]]

/-- The first byte of `é` before `[é]`. -/
theorem matchPartialChar_accented :
    ∃ found, (accented .char).matchPartialChar ⟨0, 0⟩ ⟨3, 1⟩ = .ok found ∧
      (found = true ↔ ∃ chr, PartialUtf8.Completes ⟨3, 1⟩ chr ∧
        (accented .char).takes ⟨0, 0⟩ chr = true) := by
  refine (matchPartialChar_exact_iff (by decide) (by decide)).mpr ?_
  intro _
  rw [if_pos (by decide)]
  rintro ⟨item, member, misread⟩
  have single : item = .range 0xE9 0xE9 := mem_singleton.mp member
  subst single
  exact (Nat.lt_irrefl _ misread.1).elim

/-- `à` starts with the same byte as `é` and is taken by `[^é]`, but the byte alone is refused. -/
theorem matchPartialChar_refuses :
    decodeUtf8 [0xC3] {} = ([0], ⟨3, 1⟩) ∧
      (accented .charNot).matchPartialChar ⟨0, 0⟩ ⟨3, 1⟩ = .ok false ∧
      PartialUtf8.Completes ⟨3, 1⟩ 0xE0 ∧ (accented .charNot).takes ⟨0, 0⟩ 0xE0 = true := by
  refine ⟨by decide, by decide, ⟨⟨[0xA0], by decide +kernel, by decide, by decide⟩, by decide⟩,
    by decide⟩

end GrammarRules

end Iian
