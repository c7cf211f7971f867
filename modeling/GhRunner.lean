import GhRunner.Lib.Saturating
import GhRunner.Lib.FiniteMap
import GhRunner.Lib.FirstFit
import GhRunner.Lib.Machine
import GhRunner.Lib.LastMatch
import GhRunner.Lib.Operands
import GhRunner.Lib.TreeWalk
import GhRunner.Lib.StackWalk
import GhRunner.Lib.Paths
import GhRunner.Lib.Percent
import GhRunner.Lib.Pieces
import GhRunner.Lib.Text
import GhRunner.Lib.Codes
import GhRunner.Lib.Decimal
import GhRunner.Lib.Json
import GhRunner.Lib.WholeNumbers
import GhRunner.Lib.Traced
import GhRunner.Lib.Raises
import GhRunner.Lib.Ranked
import GhRunner.Lib.Utf8
import GhRunner.Lib.LossyUtf8
import GhRunner.Lib.JsonText
import GhRunner.Lib.KeyedMerge
import GhRunner.Lib.Base64
import GhRunner.Lib.Binary64
import GhRunner.Lib.FileTree
import GhRunner.Lib.Spans
import GhRunner.Lib.Lines
import GhRunner.Lib.Lockstep
import GhRunner.Lib.Markers
import GhRunner.Shared.SecretMasker
import GhRunner.Shared.RedactingWriter
import GhRunner.Shared.Masking
import GhRunner.Shared.FallbackMasking
import GhRunner.Shared.EncodedSecrets
import GhRunner.Wire.LiveLog
import GhRunner.Lib.Descent
import GhRunner.Daemon.Gate
import GhRunner.Daemon.GateAccounting
import GhRunner.Daemon.GateRuns
import GhRunner.Daemon.Registry
import GhRunner.Daemon.Reaper
import GhRunner.Daemon.Labels
import GhRunner.Daemon.Tick
import GhRunner.Daemon.Reconcile
import GhRunner.Daemon.Promotion
import GhRunner.Daemon.Adopt
import GhRunner.Daemon.Twins
import GhRunner.Daemon.System
import GhRunner.Daemon.Consistency
import GhRunner.Daemon.Tombstone
import GhRunner.Cache.Manifest
import GhRunner.Cache.Store
import GhRunner.Cache.RoundTrip
import GhRunner.Cache.TornStore
import GhRunner.Cache.Index
import GhRunner.Cache.Lookup
import GhRunner.Cache.IndexFiles
import GhRunner.Cache.LookupOrder
import GhRunner.Cache.RetainedWinner
import GhRunner.Cache.Gc
import GhRunner.Cache.GcPass
import GhRunner.Cache.GcProgress
import GhRunner.Cache.IndexCrash
import GhRunner.Cache.Twirp
import GhRunner.Cache.V1
import GhRunner.Cache.BlockLists
import GhRunner.Cache.RangeRequests
import GhRunner.Cache.TrustBoundary
import GhRunner.Cache.UploadRace
import GhRunner.Cache.DeadKey
import GhRunner.Cache.ChunkedUploads
import GhRunner.Cache.Lease
import GhRunner.Cache.Shared
import GhRunner.Cache.NothingLost
import GhRunner.Expressions.Value
import GhRunner.Expressions.Template
import GhRunner.Expressions.GlobWalk
import GhRunner.Expressions.GlobOrder
import GhRunner.Expressions.LinkCycles
import GhRunner.Expressions.Parser
import GhRunner.Expressions.Grammar
import GhRunner.Expressions.Number
import GhRunner.Expressions.Coercion
import GhRunner.Expressions.Functions
import GhRunner.Expressions.Lexer
import GhRunner.Expressions.Evaluator
import GhRunner.Expressions.Strictness
import GhRunner.Expressions.Contracts
import GhRunner.Expressions.FormatStrings
import GhRunner.Expressions.JsonRoundTrip
import GhRunner.Expressions.Delimiters
import GhRunner.Expressions.Display
import GhRunner.Expressions.Printed
import GhRunner.Expressions.Unparse
import GhRunner.Execution.ActionRef
import GhRunner.Execution.ActionPaths
import GhRunner.Execution.ReferenceRoundTrip
import GhRunner.Execution.DockerPrepare
import GhRunner.Execution.Shadow
import GhRunner.Execution.SingleFlight
import GhRunner.Execution.ExtractedTree
import GhRunner.Docker.ActionArchive
import GhRunner.Docker.ContainerOptions
import GhRunner.Docker.IgnorePattern
import GhRunner.Docker.OptionValues
import GhRunner.Docker.Durations
import GhRunner.Docker.PathTranslator
import GhRunner.Execution.ActionCache
import GhRunner.Execution.ArchiveRequest
import GhRunner.Execution.InputMerge
import GhRunner.Execution.JobCancellation
import GhRunner.Execution.CancellationRuns
import GhRunner.Execution.JobOutputs
import GhRunner.Execution.JobResult
import GhRunner.Execution.OutputMerge
import GhRunner.Execution.PostScopes
import GhRunner.Execution.EscapedSecrets
import GhRunner.Execution.StatusConditions
import GhRunner.Execution.JobSteps
import GhRunner.Execution.WorkspaceLeases
import GhRunner.Execution.WorkspaceMoves
import GhRunner.Execution.WorkspaceMappings
import GhRunner.Execution.WorkspaceExclusion
import GhRunner.Execution.Workspaces
import GhRunner.Execution.WorkspaceGc
import GhRunner.Execution.GcProtection
import GhRunner.Execution.Context
import GhRunner.Execution.NestedUses
import GhRunner.Execution.SingleEvaluation
import GhRunner.Execution.FileCommands
import GhRunner.Execution.CommandParser
import GhRunner.Execution.ProblemMatcher
import GhRunner.Execution.MatcherRuns
import GhRunner.Execution.MatcherCommands
import GhRunner.Execution.CommandDispatch
import GhRunner.Execution.AnnotationRanges
import GhRunner.Execution.ShellTemplates
import GhRunner.Execution.OrphanSweep
import GhRunner.Execution.StopCommands
import GhRunner.Execution.CommandEncoding
import GhRunner.Execution.CompositeDepth
import GhRunner.Execution.DepthAccounting
import GhRunner.Execution.CompositeConditions
import GhRunner.Execution.CompositeEnv
import GhRunner.Execution.CompositeRuns
import GhRunner.Listener.Broker
import GhRunner.Listener.ForwardedLines
import GhRunner.Lib.History
import GhRunner.Wire.Reporting
import GhRunner.Listener.LockLoss
import GhRunner.Listener.StepReporter
import GhRunner.Listener.StepReportQueue
import GhRunner.Listener.Idle
import GhRunner.Listener.Sessions
import GhRunner.Listener.Supervisor
import GhRunner.Config.Lockfile
import GhRunner.Config.ServiceUnit
import GhRunner.Config.PropertyList
import GhRunner.Config.SystemdUnit
import GhRunner.Config.UnitRoundTrip
import GhRunner.Listener.ClaimedJobs
import GhRunner.Execution.SnapshotOrder
import GhRunner.Lib.Dialogue
import GhRunner.Lib.Holdings
import GhRunner.Docker.VolumeMounts
import GhRunner.Docker.CreateBodies
import GhRunner.Docker.Daemon
import GhRunner.Docker.OwnedResources
import GhRunner.Docker.ServiceContainers
import GhRunner.Docker.ServiceStart
import GhRunner.Docker.JobContainer
import GhRunner.Execution.ContainerJob
import GhRunner.Execution.JobEntry
import GhRunner.Observability.Journal
import GhRunner.Observability.JournalReader
import GhRunner.Observability.JournalWriter
import GhRunner.Listener.RunLoop
import GhRunner.Wire.StepSummary
import GhRunner.Expressions.ContextData
