import TinyKV.Lib.Text
import TinyKV.Lib.Machine
import TinyKV.Lib.Cpp
import TinyKV.Lib.Keyed
import TinyKV.Lib.Recency
import TinyKV.Lib.Circle
import TinyKV.Lib.Interleaving
import TinyKV.Lib.Linearizability
import TinyKV.Lib.Mixing
import TinyKV.Lib.Monitor
import TinyKV.Protocol
import TinyKV.Grammar
import TinyKV.Storage.KVStore
import TinyKV.Storage.Store
import TinyKV.Storage.History
import TinyKV.Storage.Inclusion
import TinyKV.Storage.ExpiryManager
import TinyKV.Storage.Sweeper
import TinyKV.Storage.Wakeups
import TinyKV.CommandExecutor
import TinyKV.Reference
import TinyKV.Effect
import TinyKV.Cell
import TinyKV.Lifetime
import TinyKV.Steps
import TinyKV.Atomicity
import TinyKV.SweepRace
import TinyKV.Persistence
import TinyKV.Snapshot
import TinyKV.Crash
import TinyKV.Server
import TinyKV.Recovery
import TinyKV.ConcurrentSave
import TinyKV.LogOrder
import TinyKV.Sync
import TinyKV.Resync
import TinyKV.Stream
import TinyKV.Chain
import TinyKV.ExpiryRecovery
import TinyKV.Eviction
import TinyKV.Net
import TinyKV.Framing
import TinyKV.LineLimit
import TinyKV.Replies
import TinyKV.Sharding.Ring
import TinyKV.Sharding.Hash
import TinyKV.Sharding.Members
import TinyKV.Sharding.Topology
import TinyKV.Sharding.TopologyFile
import TinyKV.Sharding.Router
import TinyKV.Sharding.Failover
import TinyKV.Sharding.HealthChecker
import TinyKV.Sharding.Health
import TinyKV.Sharding.Backend
import TinyKV.Sharding.Requests
import TinyKV.Sharding.Lockstep
import TinyKV.Sharding.Transparency
import TinyKV.Sharding.Clients
import TinyKV.Sharding.HealthLoop
import TinyKV.ExpiryReplica
import TinyKV.Logging
import TinyKV.Counter
import TinyKV.Deadline
import TinyKV.SaveFailure
import TinyKV.ReadOnly
import TinyKV.CounterRace
import TinyKV.Promotion
import TinyKV.Connections
import TinyKV.OneReply
import TinyKV.ThreadPool
import TinyKV.PoolLiveness
import TinyKV.BackgroundTasks
import TinyKV.Timer
import TinyKV.Linearizability
import TinyKV.Descriptors
import TinyKV.Reconnect
import TinyKV.Sharding.Deployment
import TinyKV.Registry
import TinyKV.Durability
import TinyKV.Everysec
