import DistributedKV.Consensus.Durability
import DistributedKV.Consensus.FollowerCommit
import DistributedKV.Consensus.Terms
import DistributedKV.Consensus.WriteFailures
import DistributedKV.Consensus.VoteTally
import DistributedKV.Consensus.CommitRule
import DistributedKV.Consensus.Bookkeeping
import DistributedKV.Consensus.Application
import DistributedKV.Consensus.MatchIndex
import DistributedKV.Storage.Coherence
import DistributedKV.Api.Pagination
import DistributedKV.Api.FrontEnds
import DistributedKV.Consensus.Quorums
import DistributedKV.Client.ConnectionPool
import DistributedKV.Client.Retry
import DistributedKV.Security.RateBounds
import DistributedKV.Security.PolicyOrder
import DistributedKV.Security.Revocation
import DistributedKV.Security.AuditDelivery
import DistributedKV.Security.AuditFiles
import DistributedKV.Partitioning.TwoPhaseCommit
import DistributedKV.Partitioning.AcknowledgedWrites
import DistributedKV.Performance.LastWrite
import DistributedKV.Monitoring.Histogram
import DistributedKV.Monitoring.RequestCounters
import DistributedKV.Api.BatchAccounting
import DistributedKV.Consensus.Partitions
import DistributedKV.Consensus.SafetyValidator
import DistributedKV.Api.Deletes
import DistributedKV.Consensus.CrashAtomicity
import DistributedKV.Consensus.Snapshots
import DistributedKV.Partitioning.RingOwnership
import DistributedKV.Partitioning.RingCollisions
import DistributedKV.Partitioning.SplitMerge
import DistributedKV.Partitioning.RouteCache
import DistributedKV.Performance.DataFormat
import DistributedKV.Performance.WriteCacheBound
import DistributedKV.Performance.ReadCacheOrder
import DistributedKV.Api.ValueFidelity
import DistributedKV.Client.BoundedReads
import DistributedKV.Client.BreakerHistory
import DistributedKV.Performance.ZeroCopySend
import DistributedKV.Performance.Batching
import DistributedKV.Client.NodeSelection
import DistributedKV.Client.ListOptions
import DistributedKV.Security.GlobalLimit
import DistributedKV.Security.RoleGraph
import DistributedKV.Security.ClientIdentity
