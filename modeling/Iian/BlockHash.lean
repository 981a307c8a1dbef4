import Mathlib.Data.List.Basic

/- The chained 64-bit hashes of full KV blocks. -/
namespace Iian

/-- `token_t`, a signed 32-bit integer; only tokens in the vocabulary reach a request. -/
abbrev Token := Int

def hashNone : UInt64 := 0

def mix64 (h : UInt64) : UInt64 :=
  let h := h ^^^ (h >>> 33)
  let h := h * 0xff51afd7ed558ccd
  let h := h ^^^ (h >>> 33)
  let h := h * 0xc4ceb9fe1a85ec53
  h ^^^ (h >>> 33)

/-- The cast `(uint64_t) (uint32_t) token`. -/
def tokenWord (token : Token) : UInt64 := UInt64.ofNat (token % 4294967296).toNat

def hashToken (h : UInt64) (token : Token) : UInt64 :=
  mix64 (h ^^^ (tokenWord token + (0x9E3779B97F4A7C15 : UInt64) + (h <<< 6 : UInt64) +
    (h >>> 2 : UInt64)))

def hashBlock (parentHash : UInt64) (tokens : List Token) (extra : UInt64) : UInt64 :=
  let h := tokens.foldl hashToken
    (mix64 (parentHash ^^^ 0x9E3779B97F4A7C15) ^^^ mix64 (extra + 0x632BE59BD9B4E019))
  if h = hashNone then 1 else h

theorem hashBlock_ne_none (parentHash : UInt64) (tokens : List Token) (extra : UInt64) :
    hashBlock parentHash tokens extra ≠ hashNone := by
  unfold hashBlock
  dsimp only
  split
  · decide
  · assumption

/-- The tokens of full block `index`. -/
def blockTokens (blockSize : Nat) (tokens : List Token) (index : Nat) : List Token :=
  (tokens.drop (index * blockSize)).take blockSize

/-- One turn of the loop of `update_hashes`: hash the next full block under the last hash. -/
def pushHash (blockSize : Nat) (tokens : List Token) (extra : UInt64)
    (hashes : List UInt64) : List UInt64 :=
  let index := hashes.length
  let parent := if index = 0 then hashNone else hashes.getD (index - 1) hashNone
  hashes ++ [hashBlock parent (blockTokens blockSize tokens index) extra]

def pushHashes (blockSize : Nat) (tokens : List Token) (extra : UInt64) :
    Nat → List UInt64 → List UInt64
  | 0, hashes => hashes
  | turns + 1, hashes => pushHashes blockSize tokens extra turns
      (pushHash blockSize tokens extra hashes)

/-- `update_hashes`; the loop runs once for every full block that has no hash yet. -/
def updateHashes (blockSize : Nat) (hashes : List UInt64) (tokens : List Token)
    (extra : UInt64) : List UInt64 :=
  pushHashes blockSize tokens extra (tokens.length / blockSize - hashes.length) hashes

/-- The hash of the chain of the first `count` full blocks. -/
def chainHash (blockSize : Nat) (tokens : List Token) (extra : UInt64) : Nat → UInt64
  | 0 => hashNone
  | count + 1 => hashBlock (chainHash blockSize tokens extra count)
      (blockTokens blockSize tokens count) extra

/-- The chained hashes of the first `count` full blocks, in order. -/
def chainHashes (blockSize : Nat) (tokens : List Token) (extra : UInt64) (count : Nat) :
    List UInt64 :=
  (List.range count).map (fun index => chainHash blockSize tokens extra (index + 1))

theorem chainHash_ne_none (blockSize : Nat) (tokens : List Token) (extra : UInt64) (count : Nat) :
    chainHash blockSize tokens extra (count + 1) ≠ hashNone :=
  hashBlock_ne_none _ _ _

@[simp] theorem chainHashes_length (blockSize : Nat) (tokens : List Token) (extra : UInt64)
    (count : Nat) : (chainHashes blockSize tokens extra count).length = count := by
  simp [chainHashes]

variable {count : Nat}

section

variable (blockSize : Nat) (tokens : List Token) (extra : UInt64)

theorem chainHashes_getElem? {index : Nat} (inside : index < count) :
    (chainHashes blockSize tokens extra count)[index]? =
      some (chainHash blockSize tokens extra (index + 1)) := by
  simp [chainHashes, inside]

theorem chainHashes_succ (count : Nat) :
    chainHashes blockSize tokens extra (count + 1) =
      chainHashes blockSize tokens extra count ++
        [chainHash blockSize tokens extra (count + 1)] := by
  simp [chainHashes, List.range_succ]

theorem pushHash_chain (count : Nat) :
    pushHash blockSize tokens extra (chainHashes blockSize tokens extra count) =
      chainHashes blockSize tokens extra (count + 1) := by
  rw [chainHashes_succ]
  simp only [pushHash, chainHashes_length]
  cases count with
  | zero => rfl
  | succ count =>
    rw [List.getD_eq_getElem?_getD, show count + 1 - 1 = count by omega,
      chainHashes_getElem? blockSize tokens extra (show count < count + 1 by omega)]
    rfl

theorem pushHashes_chain (turns count : Nat) :
    pushHashes blockSize tokens extra turns (chainHashes blockSize tokens extra count) =
      chainHashes blockSize tokens extra (count + turns) := by
  induction turns generalizing count with
  | zero => rfl
  | succ turns ih =>
    simp only [pushHashes, pushHash_chain, ih]
    congr 1
    omega

/-- `update_hashes` extends a chain to every full block and keeps a longer one. -/
theorem updateHashes_chain (count : Nat) :
    updateHashes blockSize (chainHashes blockSize tokens extra count) tokens extra =
      chainHashes blockSize tokens extra (max count (tokens.length / blockSize)) := by
  rw [updateHashes, chainHashes_length, pushHashes_chain]
  congr 1
  omega

end

theorem blockTokens_take (blockSize : Nat) (tokens : List Token) {index : Nat}
    (inside : index < count) :
    blockTokens blockSize (tokens.take (count * blockSize)) index =
      blockTokens blockSize tokens index := by
  have room : blockSize ≤ count * blockSize - index * blockSize := by
    have step : (index + 1) * blockSize ≤ count * blockSize :=
      Nat.mul_le_mul_right blockSize (Nat.succ_le_of_lt inside)
    rw [Nat.succ_mul] at step
    omega
  simp only [blockTokens, List.drop_take, List.take_take, Nat.min_eq_left room]

/-- A chain hash reads only the blocks of its chain. -/
theorem chainHash_congr {blockSize : Nat} {left right : List Token} (extra : UInt64)
    (same : left.take (count * blockSize) = right.take (count * blockSize)) :
    chainHash blockSize left extra count = chainHash blockSize right extra count := by
  have blocks : ∀ index < count,
      blockTokens blockSize left index = blockTokens blockSize right index := by
    intro index inside
    rw [← blockTokens_take blockSize left inside, same, blockTokens_take blockSize right inside]
  clear same
  induction count with
  | zero => rfl
  | succ count ih =>
    simp only [chainHash]
    rw [ih (fun index inside => blocks index (by omega)), blocks count (by omega)]

theorem chainHash_append (blockSize : Nat) (tokens more : List Token) (extra : UInt64)
    (inside : count * blockSize ≤ tokens.length) :
    chainHash blockSize (tokens ++ more) extra count = chainHash blockSize tokens extra count :=
  chainHash_congr extra (List.take_append_of_le_length inside)

end Iian
