import Iian.Engine

/- `ngram_draft`: which tokens it drafts, and that its two loops never read outside the list. -/
namespace Iian

open List

section CountDown

variable {α : Type} {low count i : Nat} {f : Nat → Option α} {out : α}

/-- A loop that counts down from below `count` to `low`, until its body returns; the body itself is
`none` if it reads outside the list. -/
def countDown (body : Nat → Option (Option α)) (low : Nat) : Nat → Option (Option α)
  | 0 => some none
  | i + 1 =>
    if low ≤ i then do
      match ← body i with
      | some out => some (some out)
      | none => countDown body low i
    else some none

theorem range'_reverse_succ (low count : Nat) :
    (List.range' low (count + 1)).reverse = (low + count) :: (List.range' low count).reverse := by
  rw [range'_1_concat, reverse_concat]

theorem countDown_eq {body : Nat → Option (Option α)}
    (reads : ∀ i, low ≤ i → i < count → body i = some (f i)) :
    countDown body low count = some ((List.range' low (count - low)).reverse.findSome? f) := by
  induction count with
  | zero => rw [Nat.zero_sub]; rfl
  | succ count ih =>
    have rest := ih fun i least most => reads i least (Nat.lt_succ_of_lt most)
    rw [countDown]
    split
    · rename_i inside
      rw [reads count inside (Nat.lt_succ_self _), show count + 1 - low = count - low + 1 by omega,
        range'_reverse_succ, Nat.add_sub_of_le inside, findSome?_cons]
      cases f count with
      | none => exact rest
      | some out => rfl
    · rename_i below
      rw [show count + 1 - low = 0 by omega]
      rfl

/-- The search returns at the last place where it can. -/
theorem findSome?_last (least : low ≤ i) (most : i < low + count) (here : f i = some out)
    (later : ∀ j, i < j → j < low + count → f j = none) :
    (List.range' low count).reverse.findSome? f = some out := by
  induction count with
  | zero => omega
  | succ count ih =>
    rw [range'_reverse_succ, findSome?_cons]
    by_cases last : i = low + count
    · rw [← last, here]
    · rw [later _ (by omega) (by omega)]
      exact ih (by omega) fun j behind inside => later j behind (by omega)

end CountDown

variable {tokens : List Token} {k minN maxN n i : Nat}

/-- A read of `count` tokens from place `start` on. -/
def readTokens (tokens : List Token) (start count : Nat) : Option (List Token) :=
  if start + count ≤ tokens.length then some ((tokens.drop start).take count) else none

/-- One turn of the inner loop of `ngram_draft`, with its reads. -/
def compareAt (tokens : List Token) (k n i : Nat) : Option (Option (List Token)) := do
  let here ← readTokens tokens i n
  let suffix ← readTokens tokens (tokens.length - n) n
  if here = suffix then
    let out ← readTokens tokens (i + n) (min k (tokens.length - (i + n)))
    some (if out.isEmpty then none else some out)
  else some none

/-- One turn of the outer loop. -/
def draftFor (tokens : List Token) (k n : Nat) : Option (Option (List Token)) :=
  let nTok := tokens.length
  let searchFrom := if nTok > 8192 then nTok - 8192 else 0
  if nTok < n + 1 then some none else countDown (compareAt tokens k n) searchFrom (nTok - n)

/-- `ngram_draft` with its reads. -/
def ngramDraftReads (k minN maxN : Nat) (tokens : List Token) : Option (List Token) := do
  let found ← countDown (draftFor tokens k) (max 1 minN) (maxN + 1)
  some (found.getD [])

/-- The last `n` tokens stand at place `i` as well, which is earlier and among the last 8192. -/
structure EarlierGram (tokens : List Token) (n i : Nat) : Prop where
  recent : tokens.length ≤ i + 8192
  earlier : i + n < tokens.length
  same : (tokens.drop i).take n = tokens.drop (tokens.length - n)

theorem compareAt_eq (inside : i + n < tokens.length) :
    compareAt tokens k n i = some (if (tokens.drop i).take n = tokens.drop (tokens.length - n) then
      if ((tokens.drop (i + n)).take k).isEmpty then none else some ((tokens.drop (i + n)).take k)
      else none) := by
  have whole : (tokens.drop (tokens.length - n)).take n = tokens.drop (tokens.length - n) :=
    take_of_length_le (by rw [length_drop]; omega)
  have follow : (tokens.drop (i + n)).take (min k (tokens.length - (i + n))) =
      (tokens.drop (i + n)).take k := by
    rw [← length_drop, ← take_eq_take_min]
  have reads : ∀ start count, start + count ≤ tokens.length →
      readTokens tokens start count = some ((tokens.drop start).take count) :=
    fun start count fits => if_pos fits
  rw [compareAt, reads _ _ (by omega), reads _ _ (by omega), reads _ _ (by omega), whole, follow]
  dsimp only [Option.bind_eq_bind, Option.bind_some]
  split <;> rfl

theorem draftFor_eq (tokens : List Token) (k n : Nat) :
    draftFor tokens k n = some (ngramFollow tokens k n) := by
  unfold draftFor ngramFollow
  dsimp only
  generalize (if tokens.length > 8192 then tokens.length - 8192 else 0) = searchFrom
  split
  · rfl
  · exact countDown_eq fun i _ most => compareAt_eq (by omega)

theorem EarlierGram.follows (positive : 0 < k) (gram : EarlierGram tokens n i) :
    ((tokens.drop (i + n)).take k).isEmpty = false := by
  have earlier := gram.earlier
  rw [isEmpty_eq_false_iff, ← length_pos_iff, length_take, length_drop]
  omega

/-- The tokens behind the most recent occurrence. -/
theorem ngramFollow_eq (positive : 0 < k) (gram : EarlierGram tokens n i)
    (last : ∀ j, i < j → ¬ EarlierGram tokens n j) :
    ngramFollow tokens k n = some ((tokens.drop (i + n)).take k) := by
  have earlier := gram.earlier
  have recent := gram.recent
  unfold ngramFollow
  dsimp only
  rw [if_neg (by omega)]
  have least : (if tokens.length > 8192 then tokens.length - 8192 else 0) ≤ i := by split <;> omega
  refine findSome?_last least (by omega) (by simp [gram.same, gram.follows positive]) ?_
  intro j behind most
  refine if_neg fun same => last j behind ⟨by omega, by omega, same⟩

theorem ngramFollow_eq_none_iff (positive : 0 < k) :
    ngramFollow tokens k n = none ↔ ∀ i, ¬ EarlierGram tokens n i := by
  unfold ngramFollow
  dsimp only
  split
  · rename_i short
    exact ⟨fun _ i gram => by have := gram.earlier; omega, fun _ => rfl⟩
  rename_i long
  rw [findSome?_eq_none_iff]
  constructor
  · intro none i gram
    have earlier := gram.earlier
    have recent := gram.recent
    have turn := none i (by rw [mem_reverse, mem_range'_1]; split <;> omega)
    rw [if_pos gram.same, gram.follows positive] at turn
    cases turn
  · intro never i member
    rw [mem_reverse, mem_range'_1] at member
    refine if_neg fun same => never i ⟨?_, by omega, same⟩
    split at member <;> omega

theorem ngramFollow_ne_nil (tokens : List Token) (k n : Nat) : ngramFollow tokens k n ≠ some [] := by
  unfold ngramFollow
  dsimp only
  split
  · nofun
  intro found
  obtain ⟨i, _, turn⟩ := exists_of_findSome?_eq_some found
  split at turn
  · split at turn
    · cases turn
    · rename_i filled
      rw [Option.some.inj turn] at filled
      exact filled rfl
  · cases turn

/-- The drafts are what follows the most recent earlier occurrence of the longest suffix that has
one, and every read is inside the list. -/
theorem ngramDraft_exact (positive : 0 < k) (tokens : List Token) (minN maxN : Nat) :
    ngramDraftReads k minN maxN tokens = some (ngramDraft k minN maxN tokens) ∧
      (ngramDraft k minN maxN tokens = [] ↔
        ∀ n, max 1 minN ≤ n → n ≤ maxN → ∀ i, ¬ EarlierGram tokens n i) ∧
      ∀ n i, max 1 minN ≤ n → n ≤ maxN → EarlierGram tokens n i →
        (∀ m, n < m → m ≤ maxN → ∀ j, ¬ EarlierGram tokens m j) →
        (∀ j, i < j → ¬ EarlierGram tokens n j) →
        ngramDraft k minN maxN tokens = (tokens.drop (i + n)).take k := by
  have reads := @countDown_eq _ (max 1 minN) (maxN + 1) _ _
    fun n _ _ => draftFor_eq tokens k n
  refine ⟨?_, ?_, ?_⟩
  · rw [ngramDraftReads, reads]
    rfl
  · rw [ngramDraft]
    have none := @findSome?_eq_none_iff _ _ (ngramFollow tokens k)
      (List.range' (max 1 minN) (maxN + 1 - max 1 minN)).reverse
    simp only [mem_reverse, mem_range'_1, ngramFollow_eq_none_iff positive] at none
    constructor
    · intro empty n least most
      refine none.mp ?_ n ⟨least, by omega⟩
      cases found : findSome? (ngramFollow tokens k) _ with
      | none => rfl
      | some out =>
        obtain ⟨n, _, follow⟩ := exists_of_findSome?_eq_some found
        rw [found, Option.getD_some] at empty
        exact (ngramFollow_ne_nil tokens k n (empty ▸ follow)).elim
    · intro never
      rw [none.mpr fun n inside => never n inside.1 (by omega)]
      rfl
  · intro n i least most gram longest last
    rw [ngramDraft, findSome?_last least (by omega) (ngramFollow_eq positive gram last) fun m behind inside =>
      (ngramFollow_eq_none_iff positive).mpr (longest m behind (by omega))]
    rfl

/-- The last two tokens stand at two earlier places, and the last three at none. -/
theorem ngramDraft_exact_repeated :
    ngramDraftReads 2 1 3 [1, 2, 9, 1, 2, 7, 8, 1, 2] = some [7, 8] :=
  (ngramDraft_exact Nat.two_pos _ 1 3).1.trans (by decide)

end Iian
