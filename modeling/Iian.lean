import Iian.Answers
import Iian.ArgParser
import Iian.Attention
import Iian.AttentionPaths
import Iian.AttentionRun
import Iian.Batch
import Iian.BatchRows
import Iian.BatchWrites
import Iian.BlockHash
import Iian.BlockPool
import Iian.BlockPoolInvariant
import Iian.CacheSafety
import Iian.CallRegions
import Iian.CellWrites
import Iian.Characters
import Iian.ChunkText
import Iian.Decode
import Iian.Delivery
import Iian.Detokenizer
import Iian.DownloadCommand
import Iian.DraftCatchUp
import Iian.DraftHistory
import Iian.DraftLayout
import Iian.DraftModel
import Iian.DraftRounds
import Iian.Embeddings
import Iian.Engine
import Iian.EngineCompute
import Iian.EngineFrames
import Iian.EngineInvariant
import Iian.EngineRun
import Iian.EngineSteps
import Iian.EvictionOrder
import Iian.FilterAgreement
import Iian.ForbiddenTokens
import Iian.GatherGroups
import Iian.Generation
import Iian.GenerationHistory
import Iian.GenerationSteps
import Iian.Grammar
import Iian.GrammarAccept
import Iian.GrammarFilter
import Iian.GrammarLanguage
import Iian.GrammarRecursion
import Iian.GrammarStacks
import Iian.GraphReuse
import Iian.GreedyDrafts
import Iian.Handles
import Iian.HeldBack
import Iian.Isolation
import Iian.KvCache
import Iian.KvCacheInvariant
import Iian.KvRun
import Iian.Layout
import Iian.LayoutSteps
import Iian.Leases
import Iian.LeftRecursion
import Iian.Lib.CountingSort
import Iian.Lib.Derivation
import Iian.Lib.IntrusiveList
import Iian.Lib.Json
import Iian.Lib.JsonStrings
import Iian.Lib.Keyed
import Iian.Lib.Maxima
import Iian.Lib.Pushdown
import Iian.Lib.Runs
import Iian.Lib.Shell
import Iian.Lib.Slices
import Iian.Lib.Utf8
import Iian.Lib.Worklist
import Iian.Lifecycle
import Iian.Model
import Iian.ModelCache
import Iian.ModelRegistry
import Iian.ModelResolve
import Iian.Network
import Iian.Oldest
import Iian.OutputQueue
import Iian.PartialChars
import Iian.PrefixClosed
import Iian.PrefixIndex
import Iian.Printing
import Iian.Progress
import Iian.PromptLookup
import Iian.QueueOrder
import Iian.RegexAnchors
import Iian.Request
import Iian.Sampler
import Iian.SamplerDraw
import Iian.SamplerOrder
import Iian.Sampling
import Iian.ScheduleInvariant
import Iian.ScheduleSteps
import Iian.Scheduler
import Iian.SchedulerOps
import Iian.Sequential
import Iian.Server
import Iian.Service
import Iian.Shutdown
import Iian.SlotAllocation
import Iian.Speculation
import Iian.Spelling
import Iian.StepPlan
import Iian.StopCauses
import Iian.StopExact
import Iian.StopStrings
import Iian.StreamAgreement
import Iian.StreamedText
import Iian.Streaming
import Iian.TokenBoundaries
import Iian.TokenConsumption
import Iian.ToolCallText
import Iian.ToolCalls
import Iian.ToolStream
import Iian.TopLogprobs
import Iian.Truncation
import Iian.Unfit
import Iian.Verification
