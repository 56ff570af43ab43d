import KVCache.Bench.Accounting
import KVCache.Bench.Bench
import KVCache.Bench.Hits
import KVCache.Bench.Partition
import KVCache.Bench.Pooling
import KVCache.Bench.Runs
import KVCache.Bench.Serve
import KVCache.Bench.Sharing
import KVCache.Bench.Workload
import KVCache.Cluster.Cluster
import KVCache.Cluster.Consulted
import KVCache.Cluster.PrefixSoundness
import KVCache.Cluster.Progress
import KVCache.Cluster.Recovery
import KVCache.Cluster.References
import KVCache.Cluster.Requests
import KVCache.Cluster.Runs
import KVCache.Controller.Accounting
import KVCache.Controller.AdmissionCases
import KVCache.Controller.AdmissionController
import KVCache.Controller.Agreement
import KVCache.Controller.AuditLog
import KVCache.Controller.ClockReads
import KVCache.Controller.EventLog
import KVCache.Controller.EvictionCases
import KVCache.Controller.EvictionController
import KVCache.Controller.Generations
import KVCache.Controller.LruEviction
import KVCache.Controller.MigrationCases
import KVCache.Controller.MigrationControllers
import KVCache.Controller.MigrationScans
import KVCache.Controller.Stack
import KVCache.Controller.Transition
import KVCache.Coordinator.CoordinatorService
import KVCache.Coordinator.GlobalIndex
import KVCache.Core.Access
import KVCache.Core.BlockManager
import KVCache.Core.BlockPool
import KVCache.Core.BlockStore
import KVCache.Core.CachePaths
import KVCache.Core.ContentHash
import KVCache.Core.Ids
import KVCache.Core.Lifecycle
import KVCache.Core.LocalCache
import KVCache.Core.ManagerClient
import KVCache.Core.PoolHistory
import KVCache.Lib.BoundedPrefixMap
import KVCache.Lib.Exec
import KVCache.Lib.Forest
import KVCache.Lib.FreeList
import KVCache.Lib.Jsonl
import KVCache.Lib.LeastFirst
import KVCache.Lib.MapValues
import KVCache.Lib.PrefixMap
import KVCache.Lib.Recency
import KVCache.Lib.Replay
import KVCache.Lib.Reuse
import KVCache.Lib.Standing
import KVCache.Lib.Steps
import KVCache.Lib.Subtree
import KVCache.Lib.Worklist
import KVCache.Pipeline.BlockSize
import KVCache.Pipeline.Collected
import KVCache.Pipeline.Contiguity
import KVCache.Pipeline.PipelineCases
import KVCache.Pipeline.Recorded
import KVCache.Pipeline.RemoteCalls
import KVCache.Pipeline.RemoteResolution
import KVCache.Pipeline.RequestPipeline
import KVCache.Pipeline.ResolutionCases
import KVCache.Policy.Policies
import KVCache.Policy.PrefixAwareEviction
import KVCache.Policy.Routing
import KVCache.Prefix.Counts
import KVCache.Prefix.Insert
import KVCache.Prefix.InsertLoop
import KVCache.Prefix.Invariant
import KVCache.Prefix.Linked
import KVCache.Prefix.Lookup
import KVCache.Prefix.PrefixIndex
import KVCache.Prefix.PrefixLookupEngine
import KVCache.Prefix.RadixTree
import KVCache.Prefix.Refinement
import KVCache.Prefix.Remove
import KVCache.Prefix.Storage
import KVCache.Session.Agreement
import KVCache.Session.Attribution
import KVCache.Session.AuditLog
import KVCache.Session.EventLog
import KVCache.Session.FrozenClock
import KVCache.Session.Incarnations
import KVCache.Session.Linked
import KVCache.Session.Occupancy
import KVCache.Session.Payloads
import KVCache.Session.Phase1
import KVCache.Session.Pinned
import KVCache.Session.Recency
import KVCache.Session.Reuse
import KVCache.Session.Session
import KVCache.Session.Tiers
import KVCache.Sim.DecisionLogger
import KVCache.Sim.Event
import KVCache.Sim.EventSink
import KVCache.Tier.Accounting
import KVCache.Tier.Moves
import KVCache.Tier.PayloadClient
import KVCache.Tier.PayloadStore
import KVCache.Tier.TierManager
