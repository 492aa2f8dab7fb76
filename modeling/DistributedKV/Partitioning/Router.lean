import DistributedKV.Consensus.StateMachine
import DistributedKV.Lib.GoTime
import DistributedKV.Partitioning.ShardManager

/-!
# The router (`router.go`)

`RouteOperation` looks up the route of a key, executes the operation there, and tries again a few
times if that fails. The route comes from a cache, from the shard manager, or, if no shard is
found, from the hash ring; it says whether the operation is executed locally. A local write is
appended to the log of the shard's Raft group if the shard has one and this node is its stored
leader, and is acknowledged in any case.

Nothing is locked between the look-up of a route, the execution and the next attempt, so the state
that each of them meets (`World`) is an input, as are the clock readings, the orders of loops over
maps and what the disk does (`Attempt`). The data of an entry is what `CreatePutOperation` or
`CreateDeleteOperation` makes of the operation. Keys are UTF-8 here, values are any bytes.
-/

namespace DistributedKV.Partitioning

open Consensus (RaftNode LogEntry PersistOutcome AppendError createPutOperation
  createDeleteOperation)

/-- `RouteInfo`. -/
structure RouteInfo where
  key : String
  shardID : UInt32
  primaryNode : String
  replicas : List String
  cachedAt : Int
  isLocal : Bool

/-- `RouterConfig`. -/
structure RouterConfig where
  enableCaching : Bool
  maxCacheSize : Int
  retryAttempts : Int

/-- The fields of `Router` that do not change. -/
structure Router where
  nodeID : String
  config : RouterConfig
  cacheTimeout : Int64

/-- What the router works on: the shard manager, the hash ring and the route cache. -/
structure World where
  shardManager : ShardManager
  hashRing : HashRing
  routeCache : GoMap String RouteInfo

/-- The operation of an `OperationContext`. -/
inductive OperationType where
  | get
  | put
  | delete
  | other (name : String)

/-- `OperationContext`. -/
structure OperationContext where
  operation : OperationType
  key : String
  value : List UInt8

/-- `RoutingResult`; `route` is `none` before the first one is found. -/
structure RoutingResult where
  success : Bool
  value : String
  error : String
  route : Option RouteInfo
  attempts : Nat

/-- What one attempt meets. -/
structure Attempt where
  /-- The state in which the route is looked up. -/
  routing : World
  /-- The state in which the operation is executed. -/
  executing : World
  /-- The clock at the check of the cache. -/
  checkedAt : Int
  /-- The clock when the route is made. -/
  routedAt : Int
  /-- The clock when the operation is made. -/
  madeAt : Int64
  /-- The clock when the entry is made. -/
  appendedAt : Int
  /-- How many nodes of the ring are looked at. -/
  fuel : Nat
  shardOrder : IterationOrder ((_ : UInt32) × Shard)
  nodeOrder : IterationOrder ((_ : String) × RaftNode)
  cacheOrder : IterationOrder ((_ : String) × RouteInfo)
  persist : PersistOutcome
  /-- What the error says if the log cannot be written. -/
  diskError : String

/-! ## The route cache -/

namespace World

/-- `getCachedRoute`; a route that is too old is deleted. -/
def getCachedRoute (timeout : Int64) (now : Int) (w : World) (key : String) :
    World × Option RouteInfo :=
  match w.routeCache.lookup key with
  | none => (w, none)
  | some route =>
    if Time.sub now route.cachedAt > timeout then
      ({ w with routeCache := w.routeCache.erase key }, none)
    else (w, some route)

/-- One round of the loop of `evictOldestEntry`. -/
def older (oldest : Option (String × Int)) (entry : (_ : String) × RouteInfo) :
    Option (String × Int) :=
  match oldest with
  | none => some (entry.1, entry.2.cachedAt)
  | some (key, time) =>
    if entry.2.cachedAt < time then some (entry.1, entry.2.cachedAt) else some (key, time)

/-- `evictOldestEntry`; the empty key stands for none. -/
def evictOldestEntry (order : IterationOrder ((_ : String) × RouteInfo)) (w : World) : World :=
  match (order.pick w.routeCache.entries).foldl older none with
  | none => w
  | some (key, _) =>
    if key ≠ "" then { w with routeCache := w.routeCache.erase key } else w

/-- `cacheRoute`. -/
def cacheRoute (maxCacheSize : Int) (order : IterationOrder ((_ : String) × RouteInfo))
    (w : World) (key : String) (route : RouteInfo) : World :=
  let w := if w.routeCache.keys.length ≥ maxCacheSize then w.evictOldestEntry order else w
  { w with routeCache := w.routeCache.insert key route }

/-- `invalidateRoute`. -/
def invalidateRoute (w : World) (key : String) : World :=
  { w with routeCache := w.routeCache.erase key }

/-- Write a node of a shard's Raft group. -/
def setNode (w : World) (shardID : UInt32) (nodeID : String) (node : RaftNode) : World :=
  { w with
    shardManager.shards := GoMap.modify w.shardManager.shards shardID fun shard =>
      { shard with
        raftGroup := shard.raftGroup.map fun group =>
          { group with nodes := group.nodes.insert nodeID node } } }

/-- The log of a node of a shard's Raft group. -/
def logOf (w : World) (shardID : UInt32) (nodeID : String) : Option (List LogEntry) :=
  (w.shardManager.shards.lookup shardID).bind fun shard =>
    shard.raftGroup.bind fun group => (group.getNode nodeID).map RaftNode.log

end World

/-! ## Routes -/

namespace Router

variable (r : Router)

variable (hash : String → UInt64)

/-- The route to a shard. Without a leader it goes to the first replica. -/
def shardRoute (a : Attempt) (key : String) (shard : Shard) : RouteInfo :=
  let leader :=
    match a.routing.shardManager.getShardLeader a.nodeOrder shard.id with
    | .ok leader => leader
    | .error _ => shard.replicas.headD ""
  ⟨key, shard.id, leader, shard.replicas, a.routedAt, decide (leader = r.nodeID)⟩

/-- What `AppendEntry` says when it fails. -/
def appendErrorText (diskError : String) : AppendError → String
  | .notLeader => "not the leader"
  | .persistFailed _ => "failed to persist entry: " ++ diskError

/-- `executePut` and `executeDelete`, which differ in the type of the entry and the text of an
error. The operation is submitted if this node is the stored leader and in the Raft group of the
shard. -/
def executeWrite (entryType errorText : String) (data : List UInt8) (r : Router) (a : Attempt)
    (shardID : UInt32) (shard : Shard) : World × Except String String :=
  match shard.raftGroup with
  | none => (a.executing, .ok "")
  | some group =>
    if shard.leader = r.nodeID then
      match group.getNode shard.leader with
      | none => (a.executing, .ok "")
      | some leaderNode =>
        match leaderNode.appendEntry ⟨fun _ => true, a.persist⟩ entryType data a.appendedAt with
        | (node, .ok _) => (a.executing.setNode shardID shard.leader node, .ok "")
        | (node, .error err) =>
          (a.executing.setNode shardID shard.leader node,
            .error (errorText ++ appendErrorText a.diskError err))
    else (a.executing, .ok "")

/-- `contains`. -/
def contains (s substr : String) : Bool := decide (substr.toList <:+: s.toList)

/-- `shouldRetry`. -/
def shouldRetry (err : String) : Bool :=
  if contains err "not found" || contains err "invalid" then false else true

/-- The states before and after the execution of an attempt. -/
structure Effect where
  before : World
  after : World

variable (attempts : Nat → Attempt)

end Router

end DistributedKV.Partitioning
