import Forge.Common.Reachability
import Forge.Graph.BuildGraph
import Forge.Graph.Reaches
import Forge.Graph.WellFormed
import Forge.Graph.Topological
import Forge.Graph.Built
import Forge.Common.BreadthFirst
import Forge.Common.DepthFirst
import Forge.Graph.Query
import Forge.Graph.QueryTraversals
import Forge.Graph.QuerySemantics
import Forge.Graph.States
import Forge.Graph.Cancellation
import Forge.Common.Machine
import Forge.Common.WorkerPool
import Forge.Executor.Task
import Forge.Schedule.Progress
import Forge.Schedule.Bookkeeping
import Forge.Schedule.Scheduler
import Forge.Schedule.SchedulerRuns
import Forge.Schedule.WorkStealing
import Forge.Schedule.Agreement
import Forge.Schedule.CachedBuild
import Forge.Schedule.Racing
import Forge.Common.Histories
import Forge.Worker.VirtualFs
import Forge.Worker.ReadYourWrites
import Forge.Cache.LruCache
import Forge.Cache.TieredCache
import Forge.Cache.KeyCodec
import Forge.Cache.CachingExecutor
import Forge.Cache.SharedCaches
import Forge.Cache.Transparency
import Forge.Cas.Artifact
import Forge.Cas.Compression
import Forge.Cas.LocalBackend
import Forge.Common.Fallible
import Forge.Cas.RoundTrip
import Forge.Cas.RemoteBackend
import Forge.Cas.HybridBackend
import Forge.Cas.Integrity
import Forge.Common.Text
import Forge.Graph.QueryRendering
import Forge.Common.ByteOrder
import Forge.Worker.BinaryFrame
import Forge.Worker.JobCounter
import Forge.Cache.Prune
import Forge.Cache.PruneRace
import Forge.Cas.Layout
import Forge.Common.Interleaving
import Forge.Cas.StoreSteps
import Forge.Cas.ConcurrentStores
import Forge.Cas.CrashedStore
import Forge.Cas.Listing
import Forge.Cas.StoredFiles
import Forge.Cas.Quota
import Forge.Cas.Statistics
import Forge.Cas.Calls
import Forge.Common.Contracts
import Forge.Cache.CompositeCache
import Forge.Cache.Restored
import Forge.RemoteCache.Protocol
import Forge.RemoteCache.Server
import Forge.RemoteCache.Restart
import Forge.RemoteCache.ConcurrentPuts
import Forge.RemoteCache.Client
import Forge.RemoteCache.Artifact
import Forge.Gateway.Balancer
import Forge.Network.FramedPacket
import Forge.Project.PackageGraph
import Forge.Project.BuildOrder
import Forge.Fingerprint.DirectoryTree
import Forge.Fingerprint.DirectoryStream
import Forge.Fingerprint.Combine
import Forge.Graph.Levels
import Forge.Graph.Subgraph
import Forge.Backend.RustTasks
import Forge.Common.Unfoldings
import Forge.Backend.RustSoundness
import Forge.Backend.RustSelection
import Forge.Backend.Identity
import Forge.Backend.Go
import Forge.Backend.Zig
import Forge.Backend.TaskDagOrder
import Forge.Backend.Ts
import Forge.Backend.TsIdentity
import Forge.Backend.Docker
import Forge.Backend.Identities
import Forge.Common.PathText
import Forge.Backend.Cc
import Forge.Backend.CcFingerprint
import Forge.Backend.CcTasks
import Forge.Cache.ToolRuns
import Forge.Backend.CcBuilds
import Forge.Backend.Java
import Forge.Backend.JavaBuilds
import Forge.Common.SignatureScheme
import Forge.Signing.Signature
import Forge.Signing.Verifier
import Forge.Common.JsonCodec
import Forge.Security.Backend
import Forge.Security.Scanner
import Forge.Common.ContentStore
import Forge.RemoteCache.Reapi
import Forge.Cli.Lsp
import Forge.Cli.LspDiagnostics
import Forge.Graph.Merging
import Forge.Graph.Downstream
import Forge.Common.LongestChains
import Forge.Graph.Layering
import Forge.Graph.Expansion
import Forge.Schedule.CriticalPath
import Forge.Graph.Lockless
import Forge.Graph.LocklessPath
import Forge.Common.ListScheduling
import Forge.Schedule.BinPacking
import Forge.Cas.Chunking
import Forge.Cli.Polyglot
import Forge.Schedule.ReadyList
import Forge.Cas.ChunkLocality
import Forge.Cas.Cleanup
import Forge.Cache.Enumeration
import Forge.Cache.FailedPuts
import Forge.Cas.Restoring
import Forge.Cache.HostDisk
import Forge.Cache.PruneSteps
import Forge.Cache.Pruned
import Forge.Cache.PruneInside
import Forge.Cache.RefCounts
import Forge.Cache.Dangling
import Forge.Cache.PruneReport
import Forge.Cache.Capacity
import Forge.Cache.Gc
import Forge.Cache.LruRecency
import Forge.Cache.TierTraffic
import Forge.Worker.CacheAccounting
import Forge.Common.KeySort
import Forge.Worker.Cluster
import Forge.Common.Worklist
import Forge.Cache.FileLevel
import Forge.Backend.RustOrder
import Forge.Common.DependencyCounts
import Forge.Project.MemberOrder
import Forge.Graph.Induced
import Forge.Common.Regex
import Forge.Project.InputFilter
import Forge.Security.InputValidator
import Forge.Security.SanitizedPath
import Forge.Incremental.AstCache
import Forge.Incremental.Inference
import Forge.Incremental.VfsSnapshot
import Forge.Incremental.GoImports
import Forge.Executor.ResponseFile
import Forge.Coordinator.QueueRuns
import Forge.Coordinator.Registry
import Forge.Gateway.Limiter
import Forge.Cli.CriticalPath
import Forge.Migrator.Runner
import Forge.Installer.PathEnv
import Forge.Backend.DepfileRules
import Forge.Cache.DepFile
import Forge.Backend.CcCoverage
import Forge.Backend.CcHeaders
import Forge.Common.QuotedText
import Forge.Cli.Semantic
import Forge.Cli.SemanticTokens
import Forge.Plugin.TaskGraph
import Forge.Plugin.RuleFingerprints
import Forge.Plugin.StarlarkRules
import Forge.Sandbox.Environment
import Forge.Cli.Pipeline
import Forge.Incremental.ChangeDetector
import Forge.Cli.Attestation
import Forge.Cli.Arguments
import Forge.Incremental.AbiExtractor
