import MiniLlmcache.OrderedDict
import MiniLlmcache.Runs
import MiniLlmcache.LockOrder
import MiniLlmcache.Streams
import MiniLlmcache.Slices
import MiniLlmcache.LastUse
import MiniLlmcache.Protocol
import MiniLlmcache.Hasher
import MiniLlmcache.Memory
import MiniLlmcache.PoolCounts
import MiniLlmcache.Capacity
import MiniLlmcache.Eviction
import MiniLlmcache.Manager
import MiniLlmcache.Ledger
import MiniLlmcache.Sections
import MiniLlmcache.Server
import MiniLlmcache.System
import MiniLlmcache.Invariant
import MiniLlmcache.Background
import MiniLlmcache.StoreClean
import MiniLlmcache.Holds
import MiniLlmcache.Integrity
import MiniLlmcache.Hits
import MiniLlmcache.Sessions
import MiniLlmcache.Retrieve
import MiniLlmcache.Failure
import MiniLlmcache.LookupReach
import MiniLlmcache.Transfer
import MiniLlmcache.Pipeline
import MiniLlmcache.Connector
import MiniLlmcache.StoreTiling
import MiniLlmcache.Waiting
import MiniLlmcache.RoundTrip
import MiniLlmcache.WorkerConnector
import MiniLlmcache.FinishedSending
import MiniLlmcache.FinishedRecving
import MiniLlmcache.Reports
import MiniLlmcache.HashChain
import MiniLlmcache.FSAdapter
import MiniLlmcache.LoadFromL2s
import MiniLlmcache.FileNames
import MiniLlmcache.Callers
import MiniLlmcache.Recency
import MiniLlmcache.PrefixEviction
import MiniLlmcache.RecencyOrder
import MiniLlmcache.MQ
import MiniLlmcache.SocketLoop
import MiniLlmcache.Wire
import MiniLlmcache.Deadlock
import MiniLlmcache.LoadRequest
import MiniLlmcache.SessionFrame
import MiniLlmcache.Unlock
import MiniLlmcache.WriteBack
import MiniLlmcache.StoreFailure
import MiniLlmcache.Quiescence
import MiniLlmcache.Strided
import MiniLlmcache.KVFormat
import MiniLlmcache.KVMemory
import MiniLlmcache.SerialWorker
import MiniLlmcache.L2Adapters
import MiniLlmcache.Node
import MiniLlmcache.Restart
import MiniLlmcache.Recovery
import MiniLlmcache.Geometry
import MiniLlmcache.Provenance
import MiniLlmcache.Answered
import MiniLlmcache.Survival
import MiniLlmcache.Isolation
