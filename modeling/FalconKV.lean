import FalconKV.AtomicCalls.Discipline
import FalconKV.AtomicCalls.Machine
import FalconKV.AtomicCalls.Prog
import FalconKV.Common.RecencyList
import FalconKV.Common.SlotAllocator
import FalconKV.Common.Status
import FalconKV.Store.Books
import FalconKV.Store.Calls
import FalconKV.Store.Custody
import FalconKV.Store.MetaIndex
import FalconKV.Store.PendingEvictQueue
import FalconKV.Store.Programs
import FalconKV.Store.Release
import FalconKV.Store.SameKey
import FalconKV.Store.Serial
import FalconKV.Store.Conservation
import FalconKV.Store.Extents
import FalconKV.Meta.Cluster
import FalconKV.Meta.SyncClient
import FalconKV.Meta.Ownership
import FalconKV.Meta.Promises
import FalconKV.Meta.Deliveries
import FalconKV.Meta.Agreement
import FalconKV.Meta.Undertakings
import FalconKV.Meta.Reconnect
import FalconKV.Meta.Resync
import FalconKV.Common.SlotRuns
import FalconKV.Scheduler.Accumulators
import FalconKV.Scheduler.Service
import FalconKV.Scheduler.ActiveSets
import FalconKV.Scheduler.Proxy
import FalconKV.Scheduler.ProbeDuties
import FalconKV.Scheduler.Reconnection
import FalconKV.Meta.Lookups
import FalconKV.Client.Exist
import FalconKV.Store.WatermarkRuns
import FalconKV.Store.Watermarks
import FalconKV.AtomicCalls.Refinement
import FalconKV.Common.Bindings
import FalconKV.Store.Contents
import FalconKV.Store.SingleKey
import FalconKV.Store.Grace
import FalconKV.Scheduler.System
import FalconKV.Scheduler.Leaks
import FalconKV.Common.CircularBuffer
import FalconKV.Store.IOUringEngine
import FalconKV.Store.SharedRing
import FalconKV.Meta.CommitThread
import FalconKV.AtomicCalls.Waiting
import FalconKV.Python.Extension
import FalconKV.Python.CyclicWaits
import FalconKV.Common.KeyedFold
import FalconKV.Meta.Sharding
import FalconKV.Client.LinkedDescCache
import FalconKV.Client.DescCacheRuns
import FalconKV.Meta.Routing
import FalconKV.AtomicCalls.Environment
import FalconKV.Store.EvictionOrder
import FalconKV.Store.Space
import FalconKV.Store.BatchPhases
import FalconKV.Store.BatchAcks
import FalconKV.Store.RejectedSizes
import FalconKV.Store.WriteFailure
import FalconKV.Store.Images
import FalconKV.Store.BatchEquivalence
import FalconKV.Store.PutCosts
import FalconKV.Common.LinkRing
import FalconKV.Store.LinkedIndex
import FalconKV.Common.StrayFrees
import FalconKV.Store.Recency
import FalconKV.Common.LeastPrefix
import FalconKV.Store.ForceEvict
import FalconKV.AtomicCalls.Ledgers
import FalconKV.Store.PendingScan
import FalconKV.Store.QueueCalls
import FalconKV.Store.QueueRuns
import FalconKV.Store.EarlyFrees
import FalconKV.Store.Outlines
import FalconKV.Store.RejectedBatches
import FalconKV.Store.BatchOutcomes
import FalconKV.Client.Reads
import FalconKV.Client.SlotReads
import FalconKV.Client.Positions
import FalconKV.Client.Mentions
import FalconKV.Client.ReadRuns
import FalconKV.Store.LastPuts
import FalconKV.Meta.RecordTimes
import FalconKV.Meta.Redelivery
import FalconKV.Meta.RoundTrip
import FalconKV.Store.ReadFraming
import FalconKV.Store.RemovalRounds
import FalconKV.Store.FlakyRing
import FalconKV.Store.NodeLocalAccessor
import FalconKV.Store.NodeEngines
import FalconKV.Store.NodeReads
import FalconKV.Client.ReadLengths
import FalconKV.Client.DoRead
import FalconKV.Client.OneByOne
import FalconKV.Common.WrappingSteps
import FalconKV.Scheduler.NodeStats
import FalconKV.Scheduler.Attribution
import FalconKV.Store.KeyReads
import FalconKV.Store.LeaseRuns
import FalconKV.Client.HixlBalance
import FalconKV.Python.Connector
import FalconKV.Python.ConnectorReads
import FalconKV.Python.PutReferences
import FalconKV.Common.Crew
import FalconKV.Store.IOThreadPool
import FalconKV.Store.PoolTasks
import FalconKV.Python.Bridge
import FalconKV.Python.BridgeTasks
import FalconKV.Meta.ClientLoops
import FalconKV.Meta.CommitConsumer
import FalconKV.Store.RingPointers
import FalconKV.Common.Layers
import FalconKV.Config.Loader
import FalconKV.Config.Settings
import FalconKV.Config.Precedence
import FalconKV.AtomicCalls.Borrowing
import FalconKV.Store.FdCache
import FalconKV.Store.FdRuns
import FalconKV.Store.FdTransfers
import FalconKV.AtomicCalls.Histories
import FalconKV.Meta.Interleaved
import FalconKV.Meta.Linearized
import FalconKV.Meta.LatestCommits
import FalconKV.Client.Retrieval
import FalconKV.Client.BookedIO
import FalconKV.Client.HixlTransfers
import FalconKV.Client.RpcClients
import FalconKV.AtomicCalls.Dismantling
import FalconKV.Python.BridgeProcess
import FalconKV.Python.BridgeShutdown
