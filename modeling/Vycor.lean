import Vycor.Lib.ArgScan
import Vycor.Lib.Closure
import Vycor.Lib.Dedup
import Vycor.Lib.Delimited
import Vycor.Lib.EventLog
import Vycor.Lib.FirstCome
import Vycor.Lib.FoldOrder
import Vycor.Lib.GatedSearch
import Vycor.Lib.Groups
import Vycor.Lib.HitSearch
import Vycor.Lib.Keyed
import Vycor.Lib.LevelOrder
import Vycor.Lib.Memo
import Vycor.Lib.Ordered
import Vycor.Lib.OwnedLog
import Vycor.Lib.PathSearch
import Vycor.Lib.Postings
import Vycor.Lib.QueueWalk
import Vycor.Lib.Scan
import Vycor.Lib.Sticky
import Vycor.Lib.UMap
import Vycor.Lib.Waves
import Vycor.Lib.Wire
import Vycor.Lib.Worklist
import Vycor.Model.AnnealIndex
import Vycor.Model.Ast
import Vycor.Model.BakeConfig
import Vycor.Model.ByteEnums
import Vycor.Model.CallGraph
import Vycor.Model.CallGraphBuilder
import Vycor.Model.ChannelIndex
import Vycor.Model.ChannelTools
import Vycor.Model.CheckSet
import Vycor.Model.Checkpoint
import Vycor.Model.ClassHierarchy
import Vycor.Model.ControlFlowContextVisitor
import Vycor.Model.ControlFlowIndex
import Vycor.Model.ControlFlowOracle
import Vycor.Model.CoverageChecks
import Vycor.Model.DeadCode
import Vycor.Model.DeadCodeTools
import Vycor.Model.Dependencies
import Vycor.Model.ExceptionTools
import Vycor.Model.GlobalIndex
import Vycor.Model.GraphInvariant
import Vycor.Model.GraphSpec
import Vycor.Model.GraphTools
import Vycor.Model.IndexChecks
import Vycor.Model.IndexInvocations
import Vycor.Model.IndexRun
import Vycor.Model.Json
import Vycor.Model.LockTools
import Vycor.Model.McpProtocol
import Vycor.Model.McpServer
import Vycor.Model.MegascopeCli
import Vycor.Model.PathTools
import Vycor.Model.PchCache
import Vycor.Model.Registry
import Vycor.Model.RunAnalysis
import Vycor.Model.Snapshot
import Vycor.Model.SourceSelection
import Vycor.Model.StaticInitHazards
import Vycor.Model.Str
import Vycor.Model.StringInterner
import Vycor.Model.TemplateEngine
import Vycor.Model.ToolSchemas
import Vycor.Model.Tools
import Vycor.Model.TransformPipeline
import Vycor.Model.TypeNames
import Vycor.Model.VisibilityChecks
import Vycor.Model.WarmRefresh
import Vycor.Model.WorkerPool
import Vycor.Model.WorkerShard
import Vycor.Proofs.Absorb
import Vycor.Proofs.BareInvocations
import Vycor.Proofs.BaseReach
import Vycor.Proofs.BatchRemoval
import Vycor.Proofs.Boundaries
import Vycor.Proofs.CallGraphOps
import Vycor.Proofs.CallGraphSteps
import Vycor.Proofs.CallGraphWF
import Vycor.Proofs.CallGuards
import Vycor.Proofs.CallOrder
import Vycor.Proofs.CallSites
import Vycor.Proofs.CallWaves
import Vycor.Proofs.CatchSearch
import Vycor.Proofs.ChannelLog
import Vycor.Proofs.ChannelMerge
import Vycor.Proofs.ChannelPositions
import Vycor.Proofs.ChannelSites
import Vycor.Proofs.ChannelSpec
import Vycor.Proofs.CheckForwarding
import Vycor.Proofs.Checkpoint
import Vycor.Proofs.CheckpointWire
import Vycor.Proofs.Compact
import Vycor.Proofs.ContextHistory
import Vycor.Proofs.ContextPositions
import Vycor.Proofs.ContextQueries
import Vycor.Proofs.Conversions
import Vycor.Proofs.CoverageReports
import Vycor.Proofs.DeadCodeCache
import Vycor.Proofs.DeadCodePages
import Vycor.Proofs.DeadCodeProbes
import Vycor.Proofs.DeadCodeQuestions
import Vycor.Proofs.DeadCodeWalk
import Vycor.Proofs.Dependencies
import Vycor.Proofs.DiagnosticOrder
import Vycor.Proofs.Digits
import Vycor.Proofs.EdgeOrder
import Vycor.Proofs.EdgeTable
import Vycor.Proofs.EdgeViews
import Vycor.Proofs.EffectiveImpls
import Vycor.Proofs.EntryChains
import Vycor.Proofs.EntrySeeds
import Vycor.Proofs.EscapeChains
import Vycor.Proofs.ExceptionProtection
import Vycor.Proofs.FileCodec
import Vycor.Proofs.FlagSplitting
import Vycor.Proofs.GraphRange
import Vycor.Proofs.GraphSpec
import Vycor.Proofs.GraphsInStep
import Vycor.Proofs.GroupedReports
import Vycor.Proofs.HeaderStatics
import Vycor.Proofs.IdentityResolution
import Vycor.Proofs.IndexOrder
import Vycor.Proofs.IndexRange
import Vycor.Proofs.IndexSpec
import Vycor.Proofs.JournalAttempts
import Vycor.Proofs.JournalRecords
import Vycor.Proofs.LiveFixpoint
import Vycor.Proofs.LockSites
import Vycor.Proofs.McpFraming
import Vycor.Proofs.McpLines
import Vycor.Proofs.NamedLists
import Vycor.Proofs.NearestCatches
import Vycor.Proofs.NodeSurvival
import Vycor.Proofs.OdrReports
import Vycor.Proofs.OverloadVerdicts
import Vycor.Proofs.PathListing
import Vycor.Proofs.PayloadWire
import Vycor.Proofs.PchFlags
import Vycor.Proofs.PchIncludes
import Vycor.Proofs.Provenance
import Vycor.Proofs.Queries
import Vycor.Proofs.QueryNames
import Vycor.Proofs.RaiiLifetimes
import Vycor.Proofs.ReadOnlyLoad
import Vycor.Proofs.Rebuild
import Vycor.Proofs.RelationLists
import Vycor.Proofs.ReloadedChannels
import Vycor.Proofs.ReloadedContexts
import Vycor.Proofs.ReloadedGraph
import Vycor.Proofs.RemoveTUs
import Vycor.Proofs.Resume
import Vycor.Proofs.SealedPayloads
import Vycor.Proofs.SectionNeeds
import Vycor.Proofs.ServerCache
import Vycor.Proofs.ServerLedger
import Vycor.Proofs.ServerSession
import Vycor.Proofs.SetKeys
import Vycor.Proofs.ShardMerge
import Vycor.Proofs.SiteAmbiguity
import Vycor.Proofs.SiteTables
import Vycor.Proofs.SnapshotChannels
import Vycor.Proofs.SnapshotContexts
import Vycor.Proofs.SnapshotFile
import Vycor.Proofs.SnapshotGraph
import Vycor.Proofs.SnapshotMeta
import Vycor.Proofs.SnapshotRoundTrip
import Vycor.Proofs.SnapshotSafety
import Vycor.Proofs.SourceSelection
import Vycor.Proofs.StaticInitChains
import Vycor.Proofs.TemplateRoundTrip
import Vycor.Proofs.ToolArgs
import Vycor.Proofs.TransformAtomicity
import Vycor.Proofs.TypeSpelling
import Vycor.Proofs.Unwinding
import Vycor.Proofs.VisibilityOrder
import Vycor.Proofs.VisibilityReports
import Vycor.Proofs.Walks
import Vycor.Proofs.WarmRefresh
import Vycor.Proofs.WarmStart
import Vycor.Proofs.WorkerCrash
import Vycor.Proofs.WorkerPoison
import Vycor.Proofs.WorkerPool
import Vycor.Proofs.WorkerSetup
import Vycor.Proofs.WorkerShard
