import RustCodeMcp.Effect.Program
import RustCodeMcp.Effect.Execution
import RustCodeMcp.Chunker.Types
import RustCodeMcp.Chunker.Split
import RustCodeMcp.Chunker.Parts
import RustCodeMcp.Indexing.Error
import RustCodeMcp.Indexing.Merkle
import RustCodeMcp.Indexing.World
import RustCodeMcp.Indexing.FileProcessor
import RustCodeMcp.Indexing.Unified
import RustCodeMcp.Indexing.Incremental
import RustCodeMcp.Indexing.Entry
import RustCodeMcp.Indexing.PrepareRuns
import RustCodeMcp.Indexing.WriteRuns
import RustCodeMcp.Indexing.RefillRuns
import RustCodeMcp.Indexing.ChangeRuns
import RustCodeMcp.Indexing.SyncRuns
import RustCodeMcp.Indexing.PassRuns
import RustCodeMcp.Indexing.RunSpec
import RustCodeMcp.Indexing.Convergence
import RustCodeMcp.Indexing.Footprints
import RustCodeMcp.Indexing.FailedWrites
import RustCodeMcp.Indexing.Agreement
import RustCodeMcp.Indexing.NextRun
import RustCodeMcp.Indexing.Queue
import RustCodeMcp.Indexing.Looks
import RustCodeMcp.Indexing.EditedFiles
import RustCodeMcp.Indexing.EditedRuns
import RustCodeMcp.Indexing.Edits
import RustCodeMcp.Indexing.Refill
import RustCodeMcp.Indexing.Readers
import RustCodeMcp.Embeddings.Batching
import RustCodeMcp.Embeddings.Batcher
import RustCodeMcp.Machine.Runs
import RustCodeMcp.Machine.Pool
import RustCodeMcp.Embeddings.GpuBroker
import RustCodeMcp.Embeddings.BrokerRuns
import RustCodeMcp.Embeddings.BrokerGrants
import RustCodeMcp.Semantic.Service
import RustCodeMcp.Semantic.OneContext
import RustCodeMcp.Machine.Locks
import RustCodeMcp.Server.WorkspaceLocks
import RustCodeMcp.Server.LockRuns
import RustCodeMcp.Semantic.Refresh
import RustCodeMcp.Semantic.Current
import RustCodeMcp.Daemon.Socket
import RustCodeMcp.Daemon.OneDaemon
import RustCodeMcp.Daemon.Conversation
import RustCodeMcp.Daemon.Relay
import RustCodeMcp.Daemon.RelayRuns
import RustCodeMcp.Daemon.Answers
import RustCodeMcp.Daemon.Wires
import RustCodeMcp.Daemon.Session
import RustCodeMcp.Machine.Reading
import RustCodeMcp.Graph.Inputs
import RustCodeMcp.Graph.Ownership
import RustCodeMcp.Graph.Build
import RustCodeMcp.Graph.Dirty
import RustCodeMcp.Graph.History
import RustCodeMcp.Digest.HashTree
import RustCodeMcp.Indexing.Roots
import RustCodeMcp.Graph.Rows
import RustCodeMcp.Graph.Entries
import RustCodeMcp.Graph.Kept
import RustCodeMcp.Graph.Deletion
import RustCodeMcp.Embeddings.OpenRouter
import RustCodeMcp.Effect.Exchanges
import RustCodeMcp.Embeddings.OpenRouterBatches
import RustCodeMcp.Embeddings.OpenRouterRuns
import RustCodeMcp.Effect.Except
import RustCodeMcp.Codec.Format
import RustCodeMcp.VectorStore.Directory
import RustCodeMcp.VectorStore.Stamp
import RustCodeMcp.Files.Inodes
import RustCodeMcp.Graph.Slice
import RustCodeMcp.Graph.Walks
import RustCodeMcp.Effect.Triples
import RustCodeMcp.Graph.Snapshots
import RustCodeMcp.Graph.SnapshotRuns
import RustCodeMcp.Graph.Attempts
import RustCodeMcp.Graph.Crashes
import RustCodeMcp.Graph.Builders
import RustCodeMcp.Embeddings.BatchBounds
import RustCodeMcp.Embeddings.VramBudget
import RustCodeMcp.Graph.SliceRuns
import RustCodeMcp.Indexing.Retries
import RustCodeMcp.Indexing.Freshness
import RustCodeMcp.Order.Ranking
import RustCodeMcp.Search.Fusion
import RustCodeMcp.Search.Resilient
import RustCodeMcp.Semantic.Eviction
import RustCodeMcp.Semantic.Position
import RustCodeMcp.Order.Greedy
import RustCodeMcp.Chunker.HardBound
import RustCodeMcp.Indexing.FullPass
import RustCodeMcp.Digraph.Distance
import RustCodeMcp.Graph.Opened
import RustCodeMcp.Graph.Callers
import RustCodeMcp.Digraph.Cycles
import RustCodeMcp.Graph.Recursion
import RustCodeMcp.Codec.Marks
import RustCodeMcp.Daemon.Key
import RustCodeMcp.Graph.Fingerprints
import RustCodeMcp.Machine.Counting
import RustCodeMcp.Daemon.Losses
import RustCodeMcp.Codec.Streams
import RustCodeMcp.Daemon.Bytes
import RustCodeMcp.Daemon.Fallback
import RustCodeMcp.Daemon.Framing
import RustCodeMcp.Daemon.Watchdog
import RustCodeMcp.Daemon.WatchdogRuns
import RustCodeMcp.Digraph.Descent
import RustCodeMcp.Digraph.ShortestFirst
import RustCodeMcp.Graph.CallTree
import RustCodeMcp.Graph.Names
import RustCodeMcp.Graph.Meanings
import RustCodeMcp.Graph.Lookup
import RustCodeMcp.Text.Globs
import RustCodeMcp.Query.GlobMatch
import RustCodeMcp.Order.Increasing
import RustCodeMcp.Graph.TableTags
import RustCodeMcp.Query.Tables
import RustCodeMcp.Query.Compare
import RustCodeMcp.Query.Export
import RustCodeMcp.Digraph.UnionFind
import RustCodeMcp.Order.Grouping
import RustCodeMcp.Query.Clusters
import RustCodeMcp.Order.Pairs
import RustCodeMcp.Order.Pages
import RustCodeMcp.Graph.Labels
import RustCodeMcp.Query.Overlaps
import RustCodeMcp.Query.CrateEdges
import RustCodeMcp.Query.CrateEdgeRuns
import RustCodeMcp.Query.ReExports
import RustCodeMcp.Query.ReExportWalks
import RustCodeMcp.Query.Attributes
import RustCodeMcp.Text.Lines
import RustCodeMcp.Codemap.Seeds
import RustCodeMcp.Digraph.Levels
import RustCodeMcp.Order.Iteration
import RustCodeMcp.Codemap.Build
import RustCodeMcp.Codemap.BuildRuns
import RustCodeMcp.Semantic.Panics
import RustCodeMcp.Indexing.SyncRound
import RustCodeMcp.Codec.Base64
import RustCodeMcp.Embeddings.Base64
import RustCodeMcp.Embeddings.KernelCache
import RustCodeMcp.Text.Utf8
import RustCodeMcp.Semantic.Rename
import RustCodeMcp.VectorStore.Rows
import RustCodeMcp.Parser.Symbols
import RustCodeMcp.Chunker.Context
import RustCodeMcp.Text.Splice
import RustCodeMcp.Skeleton.Prefix
import RustCodeMcp.Skeleton.Source
import RustCodeMcp.Text.Fields
import RustCodeMcp.Embeddings.Identity
import RustCodeMcp.Embeddings.PriceFile
import RustCodeMcp.Graph.TargetLabels
import RustCodeMcp.Graph.OwnedRecords
import RustCodeMcp.Search.Metrics
import RustCodeMcp.Calendar.Gregorian
import RustCodeMcp.Text.Numerals
import RustCodeMcp.Latency.Timestamps
import RustCodeMcp.Text.Separators
import RustCodeMcp.Latency.Log
import RustCodeMcp.Latency.MemLines
import RustCodeMcp.Measure.Intervals
import RustCodeMcp.Latency.Judge
import RustCodeMcp.Audit.Syntax
import RustCodeMcp.Audit.UnboundedLoop
import RustCodeMcp.Audit.GuardScope
import RustCodeMcp.Order.Rearranged
import RustCodeMcp.Latency.Absorb
import RustCodeMcp.Digraph.PostOrder
import RustCodeMcp.Digraph.Worklist
import RustCodeMcp.Graph.CrateGroups
import RustCodeMcp.Graph.ExtractionScope
import RustCodeMcp.Semantic.Priming
import RustCodeMcp.Server.AnalysisGate
import RustCodeMcp.Daemon.Departures
import RustCodeMcp.Query.ForbiddenEdges
import RustCodeMcp.Query.ModuleDependencies
import RustCodeMcp.Query.ModuleTree
import RustCodeMcp.Codemap.Hierarchy
import RustCodeMcp.Tree.Rose
import RustCodeMcp.Embeddings.GraphCache
import RustCodeMcp.Query.DeadPub
import RustCodeMcp.Indexing.Traversal
import RustCodeMcp.Query.Views
