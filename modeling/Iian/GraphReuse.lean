import Iian.AttentionRun
import Iian.GatherGroups

/- When a step may reuse the compute graph of an earlier one: the key of the graph determines
everything the graph was built from.

Of the graph only what depends on the micro-batch is kept: the input tensors, and for each
layer the views and shapes of its attention. The weights, the other operations and their
sizes, which depend on the model and the number of tokens only, are left out. -/
namespace Iian

open List

variable {M : Model}

/-- What `Engine::Engine` fixes about the attention; `gather_attn_` is part of the engine's
configuration. -/
structure AttentionSettings where
  pagedAttn : Bool := false
  attentionForcePaged : Bool := false
  flashAttn : Bool := true
  nHeadMax : Nat
  nThreads : Nat
deriving DecidableEq, Repr

/-- One step of the hash. -/
def mixLayout (hash : UInt64) (value : Nat) : UInt64 :=
  (hash ^^^ UInt64.ofNat value) * 1099511628211

/-- `attn_layout_hash` -/
def attnLayoutHash (groups : List AttnGroup) : UInt64 :=
  groups.foldl (fun hash group =>
    mixLayout (mixLayout (mixLayout (mixLayout hash group.tok0) group.T) group.S) group.L)
    1469598103934665603

/-- The fields of a group that are hashed. -/
def AttnGroup.layout (group : AttnGroup) : Nat × Nat × Nat × Nat :=
  (group.tok0, group.T, group.S, group.L)

/-- A `UBatch` with its attention window. -/
structure MicroBatch where
  batch : Batch
  window : Window
deriving DecidableEq, Repr

/-- `GraphState::Key` -/
structure GraphKey where
  nTokens : Nat
  nOutputs : Nat
  nKv : Nat
  kvStart : Nat
  paged : Bool
  layout : UInt64
  gather : Bool
deriving DecidableEq, Repr

/-- The input tensors of `GraphContext`. -/
inductive InputName
  | tokens
  | pos
  | outIds
  | kIdxs
  | kqMask
  | kqMaskSwa
  | gatherIdx (group : Nat)
  | gmask (group : Nat)
  | gmaskSwa (group : Nat)
deriving DecidableEq, Repr

inductive TensorType
  | i32
  | i64
  | f16
  | f32
deriving DecidableEq, Repr

structure InputTensor where
  name : InputName
  type : TensorType
  ne : List Nat
deriving DecidableEq, Repr

/-- One group in `build_attn_gather`: the gathered rows and their shape, the view of the
queries and its shape, the mask and the width of the output. -/
structure GatherPart where
  idx : InputName
  kvShape : Nat × Nat
  queryOffset : Nat
  queryWidth : Nat
  queryShape : Nat × Nat
  mask : InputName
  outWidth : Nat
deriving DecidableEq, Repr

/-- The attention of one layer, as `build_attn` builds it: the masked path views the cells
from `kvStart` on. -/
inductive AttnNode
  | paged (nSwa : UInt32)
  | gather (parts : List GatherPart)
  | masked (kvStart nKv : Nat) (mask : InputName)
deriving DecidableEq, Repr

/-- The part of a compute graph that depends on the micro-batch. -/
structure Graph where
  nTokens : Nat
  nOutputs : Nat
  paged : Bool
  gather : Bool
  groups : List AttnGroup
  inputs : List InputTensor
  layers : List AttnNode
deriving DecidableEq, Repr

namespace MicroBatch

def nTokens (ub : MicroBatch) : Nat := ub.batch.tokens.length

def nOutputs (ub : MicroBatch) : Nat := ub.batch.outIds.length

/-- `paged_step` -/
def pagedStep (settings : AttentionSettings) (ub : MicroBatch) : Bool :=
  settings.pagedAttn && (settings.attentionForcePaged ||
    2 * settings.nThreads ≤ ub.nTokens * settings.nHeadMax)

/-- `gather_step` -/
def gatherStep (gatherAttn : Bool) (ub : MicroBatch) : Bool :=
  let active := ub.batch.seqs.filter (fun seq => !seq.cells.isEmpty)
  let sumLen := (active.map (fun seq => seq.cells.length)).sum
  gatherAttn && (active.length > 1 || ub.window.nKv > sumLen + 256)

/-- The key a step compares with the one of the last graph that was built. -/
def key (settings : AttentionSettings) (gatherAttn : Bool) (ub : MicroBatch) : GraphKey where
  nTokens := ub.nTokens
  nOutputs := ub.nOutputs
  nKv := ub.window.nKv
  kvStart := ub.window.kvStart
  paged := ub.pagedStep settings
  layout := if ub.gatherStep gatherAttn then attnLayoutHash ub.batch.attnGroups else 0
  gather := ub.gatherStep gatherAttn

/-- The inputs of `build_attn_inputs` for one group. -/
def groupInputs (hp : HParams) (group : AttnGroup) (gi : Nat) : List InputTensor :=
  [⟨.gatherIdx gi, .i32, [group.L * group.S]⟩, ⟨.gmask gi, .f16, [group.L, group.T, 1, group.S]⟩] ++
  if hp.swaMasks then [⟨.gmaskSwa gi, .f16, [group.L, group.T, 1, group.S]⟩] else []

/-- `build_inp_embd`, `build_inp_pos`, `build_inp_out_ids` and `build_attn_inputs`, with the
groups they keep. -/
def buildInputs (hp : HParams) (flashAttn paged gather : Bool) (ub : MicroBatch) :
    List AttnGroup × List InputTensor :=
  let inputs : List InputTensor := [⟨.tokens, .i32, [ub.nTokens]⟩, ⟨.pos, .i32, [ub.nTokens]⟩,
    ⟨.outIds, .i32, [ub.nOutputs]⟩, ⟨.kIdxs, .i64, [ub.nTokens]⟩]
  if paged then ([], inputs)
  else if gather then
    let groups := ub.batch.attnGroups
    (groups, inputs ++ groups.zipIdx.flatMap (fun entry => groupInputs hp entry.1 entry.2))
  else
    let maskType := if flashAttn then TensorType.f16 else .f32
    ([], inputs ++ [⟨.kqMask, maskType, [ub.window.nKv, ub.nTokens]⟩] ++
      if hp.swaMasks then [⟨.kqMaskSwa, maskType, [ub.window.nKv, ub.nTokens]⟩] else [])

/-- The turn of `build_attn_gather` for one group. -/
def gatherPart (hp : HParams) (il : Nat) (group : AttnGroup) (gi : Nat) : GatherPart where
  idx := .gatherIdx gi
  kvShape := (group.L, group.S)
  queryOffset := group.tok0
  queryWidth := group.T * group.S
  queryShape := (group.T, group.S)
  mask := if hp.swaMasks && hp.swaAt il then .gmaskSwa gi else .gmask gi
  outWidth := group.T * group.S

/-- `build_attn` -/
def buildAttn (hp : HParams) (paged gather : Bool) (ub : MicroBatch) (groups : List AttnGroup)
    (il : Nat) : AttnNode :=
  if paged then .paged (hp.pagedSwa il)
  else if gather then
    .gather (groups.zipIdx.map (fun entry => gatherPart hp il entry.1 entry.2))
  else .masked ub.window.kvStart ub.window.nKv
    (if hp.swaMasks && hp.swaAt il then .kqMaskSwa else .kqMask)

/-- `build_graph` -/
def buildGraph (hp : HParams) (nLayer : Nat) (settings : AttentionSettings) (gatherAttn : Bool)
    (ub : MicroBatch) : Graph :=
  let paged := ub.pagedStep settings
  let gather := ub.gatherStep gatherAttn
  let (groups, inputs) := ub.buildInputs hp settings.flashAttn paged gather
  { nTokens := ub.nTokens
    nOutputs := ub.nOutputs
    paged := paged
    gather := gather
    groups := groups
    inputs := inputs
    layers := (List.range nLayer).map (ub.buildAttn hp paged gather groups) }

/-- The graph depends on the batch through the key and the groups only. -/
theorem buildGraph_eq {hp : HParams} {nLayer : Nat} {settings : AttentionSettings}
    {gatherAttn : Bool} {left right : MicroBatch}
    (same : left.key settings gatherAttn = right.key settings gatherAttn)
    (groups : left.gatherStep gatherAttn = true → left.batch.attnGroups = right.batch.attnGroups) :
    left.buildGraph hp nLayer settings gatherAttn =
      right.buildGraph hp nLayer settings gatherAttn := by
  simp only [key, GraphKey.mk.injEq] at same
  obtain ⟨tokens, outputs, nKv, kvStart, paged, _, gather⟩ := same
  have attn : ∀ paged gather groups,
      left.buildAttn hp paged gather groups = right.buildAttn hp paged gather groups := by
    intro paged gather groups
    funext il
    simp only [buildAttn, nKv, kvStart]
  have inputs : left.buildInputs hp settings.flashAttn (left.pagedStep settings)
      (left.gatherStep gatherAttn) =
      right.buildInputs hp settings.flashAttn (left.pagedStep settings)
        (left.gatherStep gatherAttn) := by
    simp only [buildInputs, tokens, outputs, nKv]
    by_cases gathered : left.gatherStep gatherAttn = true
    · rw [groups gathered]
    · rw [if_neg gathered, if_neg gathered]
  simp only [buildGraph, tokens, outputs, inputs, attn, ← paged, ← gather]

end MicroBatch

namespace Batch

/-- The sequences of the groups, in order. -/
theorem attnGroups_seqs (ub : Batch) : ub.attnGroups.flatMap AttnGroup.seqs = ub.attnOrder := by
  have loop : ∀ order groups, (List.foldl ub.joinGroup groups order).flatMap AttnGroup.seqs =
      groups.flatMap AttnGroup.seqs ++ order := by
    intro order
    induction order with
    | nil => simp
    | cons s order ih =>
      intro groups
      rw [foldl_cons, ih]
      rcases ub.joinGroup_cases groups s with opened | ⟨front, last, rfl, _, joined⟩
      · simp [opened]
      · simp [joined]
  rw [attnGroups, flatMap_map]
  exact loop ub.attnOrder []

/-- Groups of consecutive sequences are determined by their hashed fields. -/
theorem groups_eq {left right : List AttnGroup}
    (layout : left.map AttnGroup.layout = right.map AttnGroup.layout)
    (first : ∀ group ∈ left, group.seqs.length = group.S)
    (second : ∀ group ∈ right, group.seqs.length = group.S) {start count other : Nat}
    (seqs : left.flatMap AttnGroup.seqs = List.range' start count)
    (others : right.flatMap AttnGroup.seqs = List.range' start other) : left = right := by
  induction left generalizing right start count other with
  | nil => simpa using layout.symm
  | cons group left ih =>
    cases right with
    | nil => simp at layout
    | cons twin right =>
      simp only [map_cons, List.cons.injEq, AttnGroup.layout, Prod.mk.injEq] at layout
      obtain ⟨⟨tok0, tokens, size, length⟩, rest⟩ := layout
      rw [flatMap_cons] at seqs others
      obtain ⟨k, _, own, tail⟩ := range'_eq_append_iff.mp seqs.symm
      obtain ⟨m, _, its, tails⟩ := range'_eq_append_iff.mp others.symm
      -- both groups have as many sequences
      have sized := first group mem_cons_self
      have twins := second twin mem_cons_self
      rw [own, length_range'] at sized
      rw [its, length_range'] at twins
      have equal : m = k := by omega
      rw [equal] at its tails
      have head : group = twin := by
        cases group
        cases twin
        simp_all
      rw [head, ih rest (fun other member => first other (mem_cons_of_mem _ member))
        (fun other member => second other (mem_cons_of_mem _ member)) tail tails]

theorem Tiled.attnGroups_eq {left right : Batch} {counts others : List Nat}
    (first : left.Tiled counts) (second : right.Tiled others)
    (layout : left.attnGroups.map AttnGroup.layout = right.attnGroups.map AttnGroup.layout) :
    left.attnGroups = right.attnGroups := by
  have order : ∀ {ub : Batch} {counts : List Nat}, ub.Tiled counts →
      ub.attnGroups.flatMap AttnGroup.seqs = List.range' 0 counts.length := by
    intro ub counts tiled
    rw [attnGroups_seqs, tiled.runs.attnOrder, map_map]
    exact zipIdx_map_snd 0 counts
  exact groups_eq layout first.runs.partitioned.sizes second.runs.partitioned.sizes (order first)
    (order second)

end Batch

namespace Engine

/-- The micro-batch of the next step, with its window. -/
def nextMicroBatch (e : Engine M) : MicroBatch where
  batch := e.nextBatch
  window := e.nextBatch.window (numCells e.cfg)

/-- The key of the next step's graph, and the graph that is built if it is not reused. -/
def nextKey (settings : AttentionSettings) (e : Engine M) : GraphKey :=
  e.nextMicroBatch.key settings e.cfg.gatherAttn

def nextGraph (hp : HParams) (nLayer : Nat) (settings : AttentionSettings) (e : Engine M) : Graph :=
  e.nextMicroBatch.buildGraph hp nLayer settings e.cfg.gatherAttn

/-- A step that finds the key of an earlier one finds the graph it would have built, with the
groups it would have computed. -/
theorem run_graph_reuse (M : Model) (cfg : EngineConfig) (settings : AttentionSettings)
    (hp : HParams) (nLayer : Nat) (earlier later : List Action)
    (reuse : (run M cfg earlier).nextKey settings = (run M cfg later).nextKey settings)
    (apart : attnLayoutHash (run M cfg earlier).nextBatch.attnGroups =
        attnLayoutHash (run M cfg later).nextBatch.attnGroups →
      (run M cfg earlier).nextBatch.attnGroups.map AttnGroup.layout =
        (run M cfg later).nextBatch.attnGroups.map AttnGroup.layout) :
    (run M cfg earlier).nextGraph hp nLayer settings =
      (run M cfg later).nextGraph hp nLayer settings ∧
    (((run M cfg later).nextKey settings).gather = true →
      (run M cfg earlier).nextBatch.attnGroups = (run M cfg later).nextBatch.attnGroups) := by
  have config : ∀ actions, (run M cfg actions).cfg = cfg :=
    fun actions => (run_invariant M cfg actions).cfg
  unfold nextKey at reuse ⊢
  unfold nextGraph
  rw [config, config] at reuse ⊢
  have groups : (run M cfg earlier).nextMicroBatch.gatherStep cfg.gatherAttn = true →
      (run M cfg earlier).nextBatch.attnGroups = (run M cfg later).nextBatch.attnGroups := by
    intro gathered
    have flag := congrArg GraphKey.gather reuse
    have hash := congrArg GraphKey.layout reuse
    simp only [MicroBatch.key] at flag hash
    rw [if_pos gathered, if_pos (flag.symm.trans gathered)] at hash
    obtain ⟨counts, first⟩ := run_tiled M cfg earlier
    obtain ⟨others, second⟩ := run_tiled M cfg later
    exact first.attnGroups_eq second (apart hash)
  refine ⟨MicroBatch.buildGraph_eq reuse groups, ?_⟩
  intro gathered
  rw [← reuse] at gathered
  exact groups gathered

/-- Gather attention over two requests of different length. -/
def gatherConfig : EngineConfig := { attentionConfig with gatherAttn := true }

def twoDecodes : List Action :=
  [.submit [5, 5, 5] {} {}, .submit [5, 5] {} {}, .step {}]

theorem run_graph_reuse_decodes :
    ((run Model.spelling gatherConfig (twoDecodes ++ [.step {}])).nextKey
        { nHeadMax := 8, nThreads := 4 }).gather = true ∧
      (run Model.spelling gatherConfig twoDecodes).nextGraph
          { nSwa := 2, isSwa := [true, false] } 2 { nHeadMax := 8, nThreads := 4 } =
        (run Model.spelling gatherConfig (twoDecodes ++ [.step {}])).nextGraph
          { nSwa := 2, isSwa := [true, false] } 2 { nHeadMax := 8, nThreads := 4 } := by
  refine ⟨by decide +kernel, (run_graph_reuse _ _ _ _ _ _ _ ?_ ?_).1⟩
  · decide +kernel
  · decide +kernel

end Engine

end Iian
