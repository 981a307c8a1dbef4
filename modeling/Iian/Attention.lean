import Iian.Batch
import Mathlib.Data.List.Sort

/- The attention paths of `GraphContext`: the masked window, the gathered groups and the paged
kernel, each as the list of the batch tokens in the order of its output rows, with the cells
the query of the row attends and their positions.

A mask entry is `none` for minus infinity. Reusing a graph whose layout is unchanged, which
does not change what is filled in, and all arithmetic on K and V are left out. -/
namespace Iian

/-- The hyperparameters the attention paths read; `alibi` is `f_max_alibi_bias > 0`. -/
structure HParams where
  nSwa : UInt32 := 0
  isSwa : List Bool := []
  causalAttn : Bool := true
  alibi : Bool := false
deriving DecidableEq, Repr

/-- `(pos_t) value`: an unsigned 32-bit number read as a signed one. -/
def posOf (value : UInt32) : Int := value.toBitVec.toInt

/-- A mask entry in half precision, where numbers from 65520 on become infinite. The rounding
of the others is left out. -/
def toF16 (value : Int) : Option Int := if value.natAbs < 65520 then some value else none

/-- The cells `[kv_start, kv_start + n_kv)`. -/
structure Window where
  kvStart : Nat
  nKv : Nat
deriving DecidableEq, Repr

/-- `AttnGroup`: `S` sequences of `T` tokens each, from batch token `tok0` on. -/
structure AttnGroup where
  tok0 : Nat
  T : Nat
  S : Nat
  L : Nat
  seqs : List Nat
deriving DecidableEq, Repr

namespace HParams

variable (hp : HParams)

def hasSwaLayers : Bool := hp.isSwa.any id

def swaAt (il : Nat) : Bool := hp.isSwa.getD il false

def maskValue (p1 p0 : Nat) : Int :=
  if hp.alibi then -((p1 : Int) - p0).natAbs else 0

/-- Whether `build_attn_inputs` adds the window-restricted masks. -/
def swaMasks : Bool := 0 < hp.nSwa && hp.hasSwaLayers

/-- The window flag of the mask `build_attn` selects for a layer. -/
def kqSwa (il : Nat) : Bool :=
  if hp.swaMasks && hp.swaAt il then true else 0 < hp.nSwa && !hp.swaMasks

/-- The window flag of the mask `build_attn_gather` selects for a layer: the restricted masks
are missing if there are no groups. -/
def gatherSwa (groups : List AttnGroup) (il : Nat) : Bool :=
  let gmaskSwa := hp.swaMasks && !groups.isEmpty
  if gmaskSwa && hp.swaAt il then true else 0 < hp.nSwa && !gmaskSwa

/-- The window `build_attn` gives the paged kernel for a layer. -/
def pagedSwa (il : Nat) : UInt32 :=
  if 0 < hp.nSwa && (hp.isSwa.isEmpty || !hp.hasSwaLayers || hp.swaAt il) then hp.nSwa else 0

end HParams

namespace SeqInfo

/-- The cells of a sequence with their positions. -/
def entries (seq : SeqInfo) : List (Option Nat × Nat) := seq.cells.zipIdx

def pairOf (entry : Option Nat × Nat) : Option (Nat × Nat) :=
  entry.1.map (fun cell => (cell, entry.2))

/-- The cells and positions among the entries that are kept. -/
def pairs (seq : SeqInfo) (keeps : Option Nat × Nat → Bool) : List (Nat × Nat) :=
  (seq.entries.filter keeps).filterMap pairOf

end SeqInfo

/-- What `fill_kq_mask` stores for a cell in the row of a query at position `p1`. -/
def kqWrite (hp : HParams) (f16 swa : Bool) (window : Window) (p1 : Nat) :
    Option Nat × Nat → Option (Nat × Option Int)
  | (none, _) => none
  | (some cell, p0) =>
    if !hp.causalAttn || p0 ≤ p1 then
      if swa && (p1 : Int) - p0 ≥ posOf hp.nSwa then none
      else
        let j : Int := (cell : Int) - window.kvStart
        if j < 0 || j ≥ window.nKv then none
        else
          let value := hp.maskValue p1 p0
          some (j.toNat, if f16 then toF16 value else some value)
    else none

/-- One row of `fill_kq_mask`. -/
def fillKqRow (hp : HParams) (f16 swa : Bool) (window : Window) (seq : SeqInfo) (p1 : Nat) :
    List (Option Int) :=
  (seq.entries.filterMap (kqWrite hp f16 swa window p1)).foldl
    (fun row write => row.set write.1 write.2) (List.replicate window.nKv none)

/-- Whether an entry is given a finite mask in its row. -/
def kqFinite (hp : HParams) (f16 swa : Bool) (window : Window) (p1 : Nat)
    (entry : Option Nat × Nat) : Bool :=
  match kqWrite hp f16 swa window p1 entry with
  | some (_, some _) => true
  | _ => false

/-- One row of `fill_gather_mask`. -/
def fillGatherRow (hp : HParams) (swa : Bool) (len : Nat) (seq : SeqInfo) (p1 : Nat) :
    List (Option Int) :=
  seq.entries.foldl (fun row entry =>
    if hp.causalAttn && entry.2 > p1 then row
    else if swa && (p1 : Int) - entry.2 ≥ posOf hp.nSwa then row
    else row.set entry.2 (toF16 (hp.maskValue p1 entry.2))) (List.replicate len none)

/-- The index rows of a gathered sequence, with the position of each cell. -/
def gatherIdx (seq : SeqInfo) (len : Nat) : List (Option Nat × Nat) :=
  (List.range len).map (fun j =>
    if j < seq.cells.length then (seq.cells.getD j none, j) else (seq.cells.getD 0 none, 0))

def gatherPairs (hp : HParams) (swa : Bool) (len : Nat) (seq : SeqInfo) (p1 : Nat) :
    List (Nat × Nat) :=
  ((gatherIdx seq len).zip (fillGatherRow hp swa len seq p1)).filterMap (fun row =>
    if row.2.isSome then SeqInfo.pairOf row.1 else none)

/-- Whether `paged_attn_impl` computes a score for an entry. -/
def pagedKeeps (hp : HParams) (nSwa : UInt32) (p1 : Nat) (entry : Option Nat × Nat) : Bool :=
  !((hp.causalAttn && entry.2 > p1) || (0 < nSwa && (p1 : Int) - entry.2 ≥ posOf nSwa))

namespace AttnGroup

/-- The queries of a group in the order of its output rows, each with its sequence. -/
def rows (group : AttnGroup) : List (Nat × Nat) :=
  (List.range group.S).flatMap (fun si => (List.range group.T).map (fun t =>
    (group.tok0 + si * group.T + t, group.seqs.getD si 0)))

/-- Padding to `FATTN_KQ_STRIDE`. -/
def align (group : AttnGroup) : AttnGroup :=
  { group with L := max 256 ((group.L + 255) / 256 * 256) }

end AttnGroup

namespace Batch

variable (ub : Batch)

/-- The cells of all sequences. -/
def cells : List Nat := (ub.seqs.flatMap (fun seq => seq.cells)).filterMap id

def cellMin : Int :=
  ub.cells.foldl (fun (least : Int) (cell : Nat) => min least cell) (2 ^ 63 - 1)

def cellMax : Int :=
  ub.cells.foldl (fun (most : Int) (cell : Nat) => max most cell) (-1)

/-- The attention window of a step. -/
def window (numCells : Nat) : Window :=
  let kvStart : Int := ub.cellMin / 256 * 256
  { kvStart := kvStart.toNat
    nKv := min (numCells - kvStart.toNat) ((ub.cellMax + 1 - kvStart + 255) / 256 * 256).toNat }

/-- The number of tokens of a sequence and the first of them. -/
def seqTokens (s : Nat) : Nat := ub.tokens.countP (fun token => token.seqIdx = s)

def seqStart (s : Nat) : Nat := ub.tokens.findIdx (fun token => token.seqIdx = s)

def seqLength (s : Nat) : Nat := (ub.seqs.getD s {}).cells.length

/-- One turn of the loop of `attn_groups`: a sequence joins the last group if it has as many
tokens. -/
def joinGroup (groups : List AttnGroup) (s : Nat) : List AttnGroup :=
  let alone : AttnGroup := {
    tok0 := ub.seqStart s, T := ub.seqTokens s, S := 1, L := ub.seqLength s, seqs := [s] }
  match groups.getLast? with
  | none => groups ++ [alone]
  | some group =>
    if group.T = ub.seqTokens s then
      groups.dropLast ++ [{ group with
        S := group.S + 1
        seqs := group.seqs ++ [s]
        L := max group.L (ub.seqLength s) }]
    else groups ++ [alone]

def attnOrder : List Nat :=
  ((List.range ub.seqs.length).filter (fun s => 0 < ub.seqTokens s)).insertionSort
    (fun a b => ub.seqStart a ≤ ub.seqStart b)

def attnGroups : List AttnGroup :=
  (ub.attnOrder.foldl ub.joinGroup []).map AttnGroup.align

def posAt (query : Nat) : Nat :=
  (ub.tokens.getD query { token := 0, pos := 0, seqIdx := 0, slot := none }).pos

/-- The masked path: one row of the mask for each batch token. -/
def maskedRows (hp : HParams) (f16 : Bool) (ub : Batch) (window : Window) (il : Nat) :
    List (Nat × List (Nat × Nat)) :=
  ub.tokens.zipIdx.map (fun (token, query) =>
    (query, (ub.seqOf token).pairs (kqFinite hp f16 (hp.kqSwa il) window token.pos)))

/-- The gather path: the groups one after the other. -/
def gatherRows (hp : HParams) (ub : Batch) (il : Nat) : List (Nat × List (Nat × Nat)) :=
  ub.attnGroups.flatMap (fun group => group.rows.map (fun (query, s) =>
    (query, gatherPairs hp (hp.gatherSwa ub.attnGroups il) group.L (ub.seqs.getD s {})
      (ub.posAt query))))

/-- The paged path. -/
def pagedRows (hp : HParams) (ub : Batch) (il : Nat) : List (Nat × List (Nat × Nat)) :=
  ub.tokens.zipIdx.map (fun (token, query) =>
    (query, (ub.seqOf token).pairs (pagedKeeps hp (hp.pagedSwa il) token.pos)))

end Batch

end Iian
