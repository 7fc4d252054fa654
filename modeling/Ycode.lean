import Ycode.RustStr
import Ycode.ListSplice
import Ycode.ListGrowth
import Ycode.PatchHunk
import Ycode.SeekSequence
import Ycode.StreamingParser
import Ycode.StreamingProgress
import Ycode.PatchParser
import Ycode.PatchAgreement
import Ycode.PatchGrammar
import Ycode.Replacements
import Ycode.LinkedTree
import Ycode.FileSystem
import Ycode.ApplyHunks
import Ycode.TurnDiff
import Ycode.TurnDiffSound
import Ycode.TurnDiffRender
import Ycode.Transcript
import Ycode.History
import Ycode.RolloutReplay
import Ycode.TurnSegments
import Ycode.PlainReplay
import Ycode.RolledBackTurn
import Ycode.UndoLog
import Ycode.TurnFinalizations
import Ycode.RollbackSync
import Ycode.ModelContext
import Ycode.ScanTracking
import Ycode.BoundedScan
import Ycode.SortedMap
import Ycode.JsonValue
import Ycode.MergePatch
import Ycode.WorldState
import Ycode.Normalize
import Ycode.Runs
import Ycode.BoundedQueue
import Ycode.LocalProcess
import Ycode.ReorderBuffer
import Ycode.SessionEvents
import Ycode.EventRecovery
import Ycode.EventOrder
import Ycode.MessageFraming
import Ycode.OrderedCiphertext
import Ycode.NoiseRelay
import Ycode.RelayLoop
import Ycode.RelayMoves
import Ycode.RelayActivation
import Ycode.OutputBuffer
import Ycode.DelimiterSearch
import Ycode.HiddenTags
import Ycode.TagStripping
import Ycode.Wildcard
import Ycode.NetworkPolicy
import Ycode.PatternReading
import Ycode.PolicyConstraints
import Ycode.DeepestRule
import Ycode.SandboxPolicy
import Ycode.PathCheck
import Ycode.WritableRoots
import Ycode.EntryOrder
import Ycode.ProjectRoots
import Ycode.FileLocks
import Ycode.WriterLock
import Ycode.WriterExclusion
import Ycode.LineFile
import Ycode.RolloutWriter
import Ycode.WriterRecovery
import Ycode.HistoryProjection
import Ycode.Fallible
import Ycode.ProjectionPasses
import Ycode.KeysetPaging
import Ycode.ThreadLineage
import Ycode.SegmentPaging
import Ycode.PagingComplete
import Ycode.PaginatedFork
import Ycode.LineageChain
import Ycode.ForkPositions
import Ycode.RolloutCuts
import Ycode.ForkHistory
import Ycode.ForkRuns
import Ycode.DeletionSafety
import Ycode.ThreadDeletion
import Ycode.DeletionSteps
import Ycode.DeletionRuns
import Ycode.KeyedTable
import Ycode.ThreadHistory
import Ycode.HistoryChanges
import Ycode.BuilderActions
import Ycode.BuilderSteps
import Ycode.BuilderInvariant
import Ycode.HistoryRebuild
import Ycode.FullDiskAccess
import Ycode.HostNormalization
import Ycode.DomainUpdate
import Ycode.OrderedMap
import Ycode.ConfigMerge
import Ycode.ConfigLaws
import Ycode.DomainLayers
import Ycode.NetworkRules
import Ycode.MiddleTruncation
import Ycode.ReverseScan
import Ycode.Utf8
import Ycode.ByteStreaming
import Ycode.Residency
import Ycode.RunTreeOwner
import Ycode.WireFormat
import Ycode.NativeOutcomes
import Ycode.ProcessPruning
import Ycode.MemorySearch
import Ycode.RolloutTruncation
