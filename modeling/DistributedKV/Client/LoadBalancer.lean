import DistributedKV.Partitioning.HashRing

/-!
# The client's load balancer (`load_balancer.go`)

`SelectNodes` picks the nodes for a key by one of five policies. Under the consistent-hash policy
the client keeps a ring of its own, rebuilt from the node map whenever that changes or the policy
is switched on, and walks it in its own way.

What Go leaves open is an input of a call (`Choices`): the order of the loop over the node map,
what `rand.Shuffle` does and what `rand.Intn` draws. The maps `healthyNodes`, `weights` and
`connections` of the source are written but never read, and are left out.
-/

namespace DistributedKV.Client

open Partitioning List

/-- `LoadBalancingPolicy`; `other` is any string that is not one of the five. -/
inductive LoadBalancingPolicy where
  | roundRobin
  | random
  | leastConn
  | weighted
  | consistent
  | other
deriving DecidableEq, Repr

/-- `NodeInfo`: what the selection reads of it. -/
structure NodeInfo where
  id : String
  isHealthy : Bool
  weight : Int64
  connections : Int
deriving DecidableEq, Repr

/-- `HashPoint`. -/
structure HashPoint where
  hash : UInt64
  nodeID : String

/-- `LoadBalancer`. -/
structure LoadBalancer where
  policy : LoadBalancingPolicy
  nodes : GoMap String NodeInfo
  roundRobinIdx : Nat
  hashRing : List HashPoint
  virtualNodes : Nat

/-- `NewLoadBalancer`. -/
def newLoadBalancer (policy : LoadBalancingPolicy) : LoadBalancer :=
  { policy := policy, nodes := ∅, roundRobinIdx := 0, hashRing := [], virtualNodes := 150 }

/-- What the language and `math/rand` leave open in a call. -/
structure Choices where
  order : IterationOrder ((_ : String) × NodeInfo)
  shuffle : IterationOrder NodeInfo
  intn : Nat → Nat

section Model

variable (hash : String → UInt64)

/-- The points of one node in `rebuildHashRing`. -/
def hashPoints (virtualNodes : Nat) (nodeID : String) : List HashPoint :=
  (virtualHashes hash virtualNodes nodeID).map fun h => ⟨h, nodeID⟩

namespace LoadBalancer

variable (lb : LoadBalancer)

/-- `rebuildHashRing`. -/
def rebuildHashRing (order : IterationOrder ((_ : String) × NodeInfo)) :
    LoadBalancer :=
  let points := (order.pick lb.nodes.entries).flatMap fun e => hashPoints hash lb.virtualNodes e.1
  { lb with hashRing := points.insertionSort fun a b => a.hash ≤ b.hash }

/-- Rebuild the ring if the policy uses it. -/
def refreshHashRing (order : IterationOrder ((_ : String) × NodeInfo)) :
    LoadBalancer :=
  if lb.policy = .consistent then lb.rebuildHashRing hash order else lb

/-- `AddNode`. -/
def addNode (node : NodeInfo)
    (order : IterationOrder ((_ : String) × NodeInfo)) : LoadBalancer :=
  { lb with nodes := lb.nodes.insert node.id node }.refreshHashRing hash order

/-- `RemoveNode`. -/
def removeNode (nodeID : String)
    (order : IterationOrder ((_ : String) × NodeInfo)) : LoadBalancer :=
  { lb with nodes := lb.nodes.erase nodeID }.refreshHashRing hash order

/-- `UpdatePolicy`. -/
def updatePolicy (policy : LoadBalancingPolicy)
    (order : IterationOrder ((_ : String) × NodeInfo)) : LoadBalancer :=
  { lb with policy := policy }.refreshHashRing hash order

/-- `MarkNodeHealthy` and `MarkNodeUnhealthy`. -/
def markNode (nodeID : String) (healthy : Bool) : LoadBalancer :=
  { lb with nodes := GoMap.modify lb.nodes nodeID fun node => { node with isHealthy := healthy } }

/-- `UpdateNodeConnections`. -/
def updateNodeConnections (nodeID : String) (connections : Int) :
    LoadBalancer :=
  { lb with
    nodes := GoMap.modify lb.nodes nodeID fun node => { node with connections := connections } }

/-- `getHealthyNodes`. -/
def getHealthyNodes (order : IterationOrder ((_ : String) × NodeInfo)) :
    List NodeInfo :=
  ((order.pick lb.nodes.entries).map Sigma.snd).filter NodeInfo.isHealthy

/-- `selectRoundRobin`. -/
def selectRoundRobin (nodes : List NodeInfo) (count : Nat) :
    LoadBalancer × List NodeInfo :=
  if nodes.length = 0 then (lb, [])
  else
    ({ lb with roundRobinIdx := (lb.roundRobinIdx + count) % nodes.length },
      (List.range count).filterMap fun i => nodes[(lb.roundRobinIdx + i) % nodes.length]?)

/-- `selectRandom`. -/
def selectRandom (shuffle : IterationOrder NodeInfo) (nodes : List NodeInfo) (count : Nat) :
    List NodeInfo :=
  if nodes.length = 0 then []
  else if count ≥ nodes.length then nodes
  else (shuffle.pick nodes).take count

/-- `selectLeastConnections`. The sort of the source is not stable, but the nodes come in the
order of a map: nodes with equally many connections are in any order already. -/
def selectLeastConnections (nodes : List NodeInfo) (count : Nat) : List NodeInfo :=
  (nodes.insertionSort fun a b => a.connections ≤ b.connections).take count

/-- The inner loop of `selectWeighted`: the first node where the running weight passes the
target. -/
def pickWeighted (target : Int64) : Int64 → List NodeInfo → Option NodeInfo
  | _, [] => none
  | currentWeight, node :: rest =>
    if currentWeight + node.weight > target then some node
    else pickWeighted target (currentWeight + node.weight) rest

/-- The weight sum of `selectWeighted`, which may overflow. -/
def totalWeight (nodes : List NodeInfo) : Int64 :=
  nodes.foldl (fun total node => total + node.weight) 0

/-- `selectWeighted`; `none` is the panic of `rand.Intn` on a negative weight sum. -/
def selectWeighted (choices : Choices) (nodes : List NodeInfo) (count : Nat) :
    Option (List NodeInfo) :=
  let totalWeight := totalWeight nodes
  if nodes.length = 0 then some []
  else if totalWeight = 0 then some (selectRandom choices.shuffle nodes count)
  else if totalWeight < 0 then
    if count = 0 then some [] else none
  else
    some ((List.range (min count nodes.length)).filterMap fun i =>
      pickWeighted (Int64.ofNat (choices.intn i % totalWeight.toNatClampNeg)) 0 nodes)

/-- The walk of `selectConsistentHash`, `left` turns before it has gone round. -/
def walkRing (lb : LoadBalancer) (idx count : Nat) :
    Nat → List NodeInfo → List String → List NodeInfo
  | 0, selected, _ => selected
  | left + 1, selected, seen =>
    if selected.length < count then
      let i := lb.hashRing.length - (left + 1)
      let ringIdx := (idx + i) % lb.hashRing.length
      let nodeID := (lb.hashRing.getD ringIdx ⟨0, ""⟩).nodeID
      if nodeID ∈ seen then walkRing lb idx count left selected seen
      else
        match lb.nodes.lookup nodeID with
        | some node =>
          if node.isHealthy then walkRing lb idx count left (selected ++ [node]) (nodeID :: seen)
          else walkRing lb idx count left selected seen
        | none => walkRing lb idx count left selected seen
    else selected

/-- `selectConsistentHash`. -/
def selectConsistentHash (choices : Choices) (key : String)
    (nodes : List NodeInfo) (count : Nat) : List NodeInfo :=
  if lb.hashRing.length = 0 then selectRandom choices.shuffle nodes count
  else
    let idx := lb.hashRing.findIdx fun p => decide (hash key ≤ p.hash)
    let idx := if idx = lb.hashRing.length then 0 else idx
    lb.walkRing idx count lb.hashRing.length [] []

/-- `SelectNodes`; an answer of `none` is a panic. -/
def selectNodes (choices : Choices) (key : String) (count : Int) :
    LoadBalancer × Option (Except String (List NodeInfo)) :=
  let healthyNodes := lb.getHealthyNodes choices.order
  if healthyNodes.length = 0 then (lb, some (.error "no healthy nodes available"))
  else
    let count := if count ≤ 0 then 1 else count.toNat
    match lb.policy with
    | .roundRobin | .other =>
      let (lb, selected) := lb.selectRoundRobin healthyNodes count
      (lb, some (.ok selected))
    | .random => (lb, some (.ok (selectRandom choices.shuffle healthyNodes count)))
    | .leastConn => (lb, some (.ok (selectLeastConnections healthyNodes count)))
    | .weighted => (lb, (selectWeighted choices healthyNodes count).map .ok)
    | .consistent =>
      (lb, some (.ok (lb.selectConsistentHash hash choices key healthyNodes count)))

end LoadBalancer

/-- The calls on a load balancer. -/
inductive BalancerCall where
  | addNode (node : NodeInfo) (order : IterationOrder ((_ : String) × NodeInfo))
  | removeNode (nodeID : String) (order : IterationOrder ((_ : String) × NodeInfo))
  | updatePolicy (policy : LoadBalancingPolicy) (order : IterationOrder ((_ : String) × NodeInfo))
  | markNode (nodeID : String) (healthy : Bool)
  | updateNodeConnections (nodeID : String) (connections : Int)
  | selectNodes (choices : Choices) (key : String) (count : Int)

/-- The load balancer after a call. -/
def LoadBalancer.apply (lb : LoadBalancer) : BalancerCall → LoadBalancer
  | .addNode node order => lb.addNode hash node order
  | .removeNode nodeID order => lb.removeNode hash nodeID order
  | .updatePolicy policy order => lb.updatePolicy hash policy order
  | .markNode nodeID healthy => lb.markNode nodeID healthy
  | .updateNodeConnections nodeID connections => lb.updateNodeConnections nodeID connections
  | .selectNodes choices key count => (lb.selectNodes hash choices key count).1

/-- The load balancer after a history of calls. -/
def balancerAfter (policy : LoadBalancingPolicy) (calls : List BalancerCall) : LoadBalancer :=
  calls.foldl (LoadBalancer.apply hash) (newLoadBalancer policy)

end Model

section Proofs

variable {hash : String → UInt64} {lb : LoadBalancer} {hr : HashRing} {nodeIDs : List String}

/-! ## The client's ring -/

/-- The ring is built from the ids of the nodes, in some order. -/
def BuiltFrom (hash : String → UInt64) (lb : LoadBalancer) (ids : List String) : Prop :=
  ids.Nodup ∧ (∀ id, id ∈ ids ↔ id ∈ lb.nodes) ∧
    lb.hashRing = (ids.flatMap (hashPoints hash lb.virtualNodes)).insertionSort fun a b =>
      a.hash ≤ b.hash

/-- **The invariant of a load balancer**: nodes are stored under their ids, and under the
consistent-hash policy the ring is that of the current nodes. -/
structure Fresh (hash : String → UInt64) (lb : LoadBalancer) : Prop where
  keyed : ∀ id node, lb.nodes.lookup id = some node → node.id = id
  ring : lb.policy = .consistent → ∃ ids, BuiltFrom hash lb ids

open LoadBalancer

theorem builtFrom_rebuildHashRing (lb : LoadBalancer)
    (order : IterationOrder ((_ : String) × NodeInfo)) :
    BuiltFrom hash (lb.rebuildHashRing hash order)
      ((order.pick lb.nodes.entries).map Sigma.fst) := by
  have hperm : ((order.pick lb.nodes.entries).map Sigma.fst).Perm lb.nodes.keys :=
    (order.perm lb.nodes.entries).map Sigma.fst
  refine ⟨hperm.nodup_iff.mpr lb.nodes.keys_nodup, fun id => ?_, ?_⟩
  · exact hperm.mem_iff.trans AList.mem_keys.symm
  · rw [rebuildHashRing, flatMap_map]

theorem fresh_refreshHashRing (hkeyed : ∀ id node, lb.nodes.lookup id = some node → node.id = id)
    (order : IterationOrder ((_ : String) × NodeInfo)) :
    Fresh hash (lb.refreshHashRing hash order) := by
  rw [refreshHashRing]
  split
  · exact ⟨hkeyed, fun _ => ⟨_, builtFrom_rebuildHashRing lb order⟩⟩
  · next hpolicy => exact ⟨hkeyed, fun h => absurd h hpolicy⟩

/-- Changing a stored node, but not its id, does not touch the ring. -/
theorem Fresh.modify (hfresh : Fresh hash lb) (nodeID : String) {f : NodeInfo → NodeInfo}
    (hf : ∀ node, (f node).id = node.id) :
    Fresh hash { lb with nodes := GoMap.modify lb.nodes nodeID f } := by
  constructor
  · intro id node hlook
    replace hlook := GoMap.lookup_modify.symm.trans hlook
    split at hlook
    · obtain ⟨old, hold, rfl⟩ := Option.map_eq_some_iff.mp hlook
      rw [hf, hfresh.keyed id old hold]
    · exact hfresh.keyed id node hlook
  · intro hpolicy
    obtain ⟨ids, hnodup, hmem, hring⟩ := hfresh.ring hpolicy
    exact ⟨ids, hnodup, fun id => (hmem id).trans GoMap.mem_modify.symm, hring⟩

theorem selectNodes_fst (hash : String → UInt64) (lb : LoadBalancer) (choices : Choices)
    (key : String) (count : Int) :
    ∃ idx, (lb.selectNodes hash choices key count).1 = { lb with roundRobinIdx := idx } := by
  have hrobin : ∀ nodes n, ∃ idx, (lb.selectRoundRobin nodes n).1 =
      { lb with roundRobinIdx := idx } := by
    intro nodes n
    rw [selectRoundRobin]
    split
    · exact ⟨lb.roundRobinIdx, rfl⟩
    · exact ⟨_, rfl⟩
  rw [selectNodes]
  split
  · exact ⟨lb.roundRobinIdx, rfl⟩
  dsimp only
  split
  · exact hrobin _ _
  · exact hrobin _ _
  all_goals exact ⟨lb.roundRobinIdx, rfl⟩

theorem fresh_apply (hfresh : Fresh hash lb) (call : BalancerCall) :
    Fresh hash (lb.apply hash call) := by
  cases call with
  | addNode node order =>
    refine fresh_refreshHashRing (fun id other hlook => ?_) order
    rcases GoMap.lookup_insert_eq_some.mp hlook with ⟨rfl, rfl⟩ | ⟨-, hlook⟩
    · rfl
    · exact hfresh.keyed id other hlook
  | removeNode nodeID order =>
    refine fresh_refreshHashRing (fun id other hlook => ?_) order
    exact hfresh.keyed id other (GoMap.lookup_erase_eq_some.mp hlook).2
  | updatePolicy policy order =>
    refine fresh_refreshHashRing ?_ order
    exact hfresh.keyed
  | markNode nodeID | updateNodeConnections nodeID => exact hfresh.modify nodeID fun _ => rfl
  | selectNodes choices key count =>
    obtain ⟨idx, heq⟩ := selectNodes_fst hash lb choices key count
    show Fresh hash (lb.selectNodes hash choices key count).1
    rw [heq]
    exact ⟨hfresh.keyed, hfresh.ring⟩

theorem virtualNodes_apply (call : BalancerCall) :
    (lb.apply hash call).virtualNodes = lb.virtualNodes := by
  cases call with
  | addNode _ order | removeNode _ order | updatePolicy _ order =>
    simp only [apply, addNode, removeNode, updatePolicy]
    rw [refreshHashRing]
    split <;> rfl
  | markNode | updateNodeConnections => rfl
  | selectNodes choices key count =>
    obtain ⟨idx, heq⟩ := selectNodes_fst hash lb choices key count
    show (lb.selectNodes hash choices key count).1.virtualNodes = lb.virtualNodes
    rw [heq]

/-- Every client has the 150 virtual nodes of `NewLoadBalancer`. -/
theorem fresh_balancerAfter (hash : String → UInt64) (policy : LoadBalancingPolicy)
    (calls : List BalancerCall) : Fresh hash (balancerAfter hash policy calls) ∧
      (balancerAfter hash policy calls).virtualNodes = 150 := by
  induction calls using List.reverseRecOn with
  | nil =>
    refine ⟨⟨?_, fun _ => ⟨[], nodup_nil, ?_, rfl⟩⟩, rfl⟩ <;> simp [balancerAfter, newLoadBalancer]
  | append_singleton calls call ih =>
    rw [balancerAfter, foldl_append]
    exact ⟨fresh_apply ih.1 call, (virtualNodes_apply call).trans ih.2⟩

/-! ## The two rings are one -/

theorem mem_hashPoints {v : Nat} {id : String} {point : HashPoint} :
    point ∈ hashPoints hash v id ↔ point.nodeID = id ∧ point.hash ∈ virtualHashes hash v id := by
  rw [hashPoints, mem_map]
  constructor
  · rintro ⟨h, hh, rfl⟩
    exact ⟨rfl, hh⟩
  · rintro ⟨rfl, hh⟩
    exact ⟨point.hash, hh, rfl⟩

theorem nodup_flatMap_hashPoints {v : Nat} (hfree : NoCollisions hash v nodeIDs)
    {ids : List String} (hnodup : ids.Nodup) (hids : ∀ id ∈ ids, id ∈ nodeIDs) :
    (ids.flatMap (hashPoints hash v)).Nodup := by
  rw [nodup_flatMap]
  constructor
  · intro id hid
    refine (hfree.nodup (hids id hid)).map ?_
    intro h h' heq
    exact congrArg HashPoint.hash heq
  · refine hnodup.imp fun hne => ?_
    intro point hpoint hpoint'
    exact hne ((mem_hashPoints.mp hpoint).1.symm.trans (mem_hashPoints.mp hpoint').1)

/-- The client's ring lists the points of the server's ring with their owners. -/
theorem hashRing_eq (hplaced : Placed hash hr)
    (hfree : NoCollisions hash hr.virtualNodes nodeIDs) (hnodes : ∀ id ∈ hr.nodes, id ∈ nodeIDs)
    {ids : List String} (hbuilt : BuiltFrom hash lb ids) (hv : lb.virtualNodes = hr.virtualNodes)
    (hsame : ∀ id, id ∈ lb.nodes ↔ id ∈ hr.nodes) :
    lb.hashRing = hr.sortedHashes.map fun p => ⟨p, (hr.ring.lookup p).getD ""⟩ := by
  obtain ⟨hnodup, hmem, hring⟩ := hbuilt
  rw [hv] at hring
  have hids : ∀ id, id ∈ ids ↔ id ∈ hr.nodes := fun id => (hmem id).trans (hsame id)
  have hperm : lb.hashRing.Perm (ids.flatMap (hashPoints hash hr.virtualNodes)) := by
    rw [hring]
    exact perm_insertionSort _ _
  have hpoint : ∀ point : HashPoint, point ∈ lb.hashRing ↔
      point ∈ hr.sortedHashes.map fun p => (⟨p, (hr.ring.lookup p).getD ""⟩ : HashPoint) := by
    intro point
    rw [hperm.mem_iff, mem_flatMap, mem_map]
    constructor
    · rintro ⟨id, hid, hp⟩
      obtain ⟨rfl, hhash⟩ := mem_hashPoints.mp hp
      have hnode := (hids _).mp hid
      refine ⟨point.hash, (hplaced.scattered.mem _).mpr ⟨_, hnode, hhash⟩, ?_⟩
      rw [hplaced.scattered.owner _ hnode _ hhash]
      rfl
    · rintro ⟨p, hp, rfl⟩
      obtain ⟨id, hid, hhash⟩ := (hplaced.scattered.mem p).mp hp
      refine ⟨id, (hids id).mpr hid, mem_hashPoints.mpr ⟨?_, hhash⟩⟩
      rw [hplaced.scattered.owner id hid p hhash]
      rfl
  -- both lists are sorted by hash, and points with one hash have one owner
  have hsorted : lb.hashRing.Pairwise fun a b => a.hash ≤ b.hash := by
    have : Std.Total fun a b : HashPoint => a.hash ≤ b.hash := ⟨fun _ _ => le_total _ _⟩
    have : IsTrans HashPoint fun a b => a.hash ≤ b.hash := ⟨fun _ _ _ => le_trans⟩
    rw [hring]
    exact pairwise_insertionSort _ _
  refine @Perm.eq_of_pairwise HashPoint (fun a b => a.hash ≤ b.hash) _ _ ?_ hsorted
    (pairwise_map.mpr (hplaced.sorted.imp le_of_lt)) ?_
  · intro a b ha hb hab hba
    obtain ⟨p, -, rfl⟩ := mem_map.mp ((hpoint a).mp ha)
    obtain ⟨q, -, rfl⟩ := mem_map.mp hb
    obtain rfl : p = q := le_antisymm hab hba
    rfl
  · refine (perm_ext_iff_of_nodup ?_ ?_).mpr hpoint
    · exact hperm.nodup_iff.mpr
        (nodup_flatMap_hashPoints hfree hnodup fun id hid => hnodes id ((hids id).mp hid))
    · exact hplaced.scattered.nodup.map fun p q heq => congrArg HashPoint.hash heq

/-! ## The two walks -/

/-- Is there such a node, and is it healthy? -/
def LoadBalancer.isHealthy (lb : LoadBalancer) (nodeID : String) : Bool :=
  (lb.nodes.lookup nodeID).any NodeInfo.isHealthy

/-- The walk of the client with `left` turns to go. `owners` is what a whole round
reads. -/
theorem walkRing_eq (hkeyed : ∀ id node, lb.nodes.lookup id = some node → node.id = id)
    {owners : List String} (hlen : owners.length = lb.hashRing.length) {idx : Nat}
    (hread : ∀ i (hi : i < owners.length),
      (lb.hashRing.getD ((idx + i) % lb.hashRing.length) ⟨0, ""⟩).nodeID = owners[i])
    {count left : Nat} {selected : List NodeInfo} {seen : List String}
    (hleft : left ≤ owners.length) :
    (lb.walkRing idx count left selected seen).map NodeInfo.id = selected.map NodeInfo.id ++
      (distinctFrom seen ((owners.drop (owners.length - left)).filter lb.isHealthy)).take
        (count - selected.length) := by
  induction left generalizing selected seen with
  | zero => simp [walkRing, distinctFrom]
  | succ left ih =>
    rw [walkRing]
    have hi : owners.length - (left + 1) < owners.length := by omega
    have hnext : owners.length - (left + 1) + 1 = owners.length - left := by omega
    by_cases hcount : selected.length < count
    · have hturn : (lb.hashRing.getD ((idx + (lb.hashRing.length - (left + 1))) %
          lb.hashRing.length) ⟨0, ""⟩).nodeID = owners[owners.length - (left + 1)] := by
        rw [← hread _ hi, hlen]
      rw [if_pos hcount]
      dsimp only
      rw [hturn, drop_eq_getElem_cons hi, hnext]
      generalize owners[owners.length - (left + 1)] = nodeID
      have hskip : lb.isHealthy nodeID = false →
          (nodeID :: owners.drop (owners.length - left)).filter lb.isHealthy =
            (owners.drop (owners.length - left)).filter lb.isHealthy := fun hsick =>
        filter_cons_of_neg (by simp [hsick])
      split_ifs with hold
      · rw [ih (by omega)]
        cases hhealthy : lb.isHealthy nodeID with
        | true => rw [filter_cons_of_pos hhealthy, distinctFrom, if_pos hold]
        | false => rw [hskip hhealthy]
      cases hlook : lb.nodes.lookup nodeID with
      | none =>
        rw [hskip (by simp [isHealthy, hlook])]
        exact ih (by omega)
      | some node =>
        dsimp only
        cases hhealthy : node.isHealthy with
        | false =>
          rw [hskip (by simp [isHealthy, hlook, hhealthy])]
          exact ih (by omega)
        | true =>
          have hplaces := append_take_cons (a := nodeID) (l := distinctFrom (nodeID :: seen)
              ((owners.drop (owners.length - left)).filter lb.isHealthy))
            (by rwa [length_map] : (selected.map NodeInfo.id).length < count)
          rw [length_map] at hplaces
          rw [if_pos rfl, ih (by omega), filter_cons_of_pos (by simp [isHealthy, hlook, hhealthy]),
            distinctFrom, if_neg hold, map_append, map_singleton,
            hkeyed nodeID node hlook, length_append, length_singleton]
          exact hplaces
    · have hnone : count - selected.length = 0 := by omega
      rw [if_neg hcount, hnone, take_zero, append_nil]

theorem getHealthyNodes_ne_nil {id : String} (hhealthy : lb.isHealthy id = true)
    (order : IterationOrder ((_ : String) × NodeInfo)) : (lb.getHealthyNodes order).length ≠ 0 := by
  rw [isHealthy, Option.any_eq_true] at hhealthy
  obtain ⟨node, hlook, hnode⟩ := hhealthy
  have hmem : node ∈ lb.getHealthyNodes order := by
    refine mem_filter.mpr ⟨mem_map.mpr ⟨⟨id, node⟩, ?_, rfl⟩, hnode⟩
    exact (order.mem_pick _).mpr (AList.mem_lookup_iff.mp hlook)
  exact (length_pos_of_mem hmem).ne'

/-- On a ring with the points of the server, the client selects the first healthy
owners. -/
theorem map_selectConsistentHash (hkeyed : ∀ id node, lb.nodes.lookup id = some node → node.id = id)
    (hring : lb.hashRing = hr.sortedHashes.map fun p => ⟨p, (hr.ring.lookup p).getD ""⟩)
    (hne : hr.sortedHashes.length ≠ 0) (choices : Choices) (key : String)
    (nodes : List NodeInfo) (count : Nat) :
    (lb.selectConsistentHash hash choices key nodes count).map NodeInfo.id =
      (distinctFrom [] ((hr.owners (hash key)).filter lb.isHealthy)).take count := by
  have hlen : lb.hashRing.length = hr.sortedHashes.length := by rw [hring, length_map]
  have hidx : lb.hashRing.findIdx (fun p => decide (hash key ≤ p.hash)) =
      hr.sortedHashes.findIdx fun p => decide (hash key ≤ p) := by
    rw [hring, findIdx_map]
    rfl
  have hread : ∀ i (hi : i < (hr.owners (hash key)).length),
      (lb.hashRing.getD ((hr.startIndex (hash key) + i) % lb.hashRing.length) ⟨0, ""⟩).nodeID =
        (hr.owners (hash key))[i] := by
    intro i hi
    have hlt : (hr.startIndex (hash key) + i) % hr.sortedHashes.length < hr.sortedHashes.length :=
      Nat.mod_lt _ (Nat.pos_of_ne_zero hne)
    rw [← owner_read hi, hlen, hring, getD_eq_getElem?_getD, getElem?_map,
      getD_eq_getElem?_getD, getElem?_eq_getElem hlt]
    rfl
  rw [selectConsistentHash, if_neg (hlen ▸ hne)]
  rw [hidx, hlen]
  show (lb.walkRing (hr.startIndex (hash key)) count hr.sortedHashes.length [] []).map _ = _
  rw [walkRing_eq hkeyed (length_owners.trans hlen.symm) hread length_owners.ge, length_owners,
    Nat.sub_self, drop_zero, length_nil, Nat.sub_zero, map_nil, nil_append]

/-- **Client and server agree on placement.** If the server's ring has the 150 virtual nodes that
every client has, both know the same nodes, and these are healthy for the client exactly when they
are active for the server, then `SelectNodes` under the consistent-hash policy and `GetNodes`
return the same nodes in the same order, however the two came to know them. -/
theorem placement_agrees {virtualNodes : Int} {nodeIDs : List String}
    (hvirtual : (newHashRing virtualNodes).virtualNodes = 150)
    (hfree : NoCollisions hash (newHashRing virtualNodes).virtualNodes nodeIDs)
    {ops : List RingOp} (hops : ∀ op ∈ ops, op.Within nodeIDs)
    (hring : ringAfter hash virtualNodes ops = hr) {policy : LoadBalancingPolicy}
    {calls : List BalancerCall} (hbalancer : balancerAfter hash policy calls = lb)
    (hpolicy : lb.policy = .consistent) (hsame : ∀ id, id ∈ lb.nodes ↔ id ∈ hr.nodes)
    (hhealth : ∀ id ∈ lb.nodes, lb.isHealthy id = hr.isActive id)
    (hsome : ∃ id ∈ lb.nodes, lb.isHealthy id = true) (choices : Choices) (key : String)
    (count : Int) (hcount : count ≤ HashRing.maxCapacity) {fuel : Nat}
    (hfuel : hr.sortedHashes.length < fuel) :
    ∃ selected, (lb.selectNodes hash choices key count).2 = some (.ok selected) ∧
      hr.getNodes hash fuel key count = some (.ok (selected.map NodeInfo.id)) := by
  have hkept := kept_ringAfter hfree hops
  rw [hring] at hkept
  obtain ⟨hfresh, hv⟩ := fresh_balancerAfter hash policy calls
  rw [hbalancer] at hfresh hv
  rw [← hvirtual] at hv
  obtain ⟨first, hfirst, hhealthy⟩ := hsome
  have hne := (hkept.placed.length_pos ((hsame first).mp hfirst)).ne'
  have hnodes : hr.nodes.len ≠ 0 :=
    (length_pos_of_mem (AList.mem_keys.mp ((hsame first).mp hfirst))).ne'
  obtain ⟨ids, hbuilt⟩ := hfresh.ring hpolicy
  have hpoints := hashRing_eq hkept.placed (hkept.virtualNodes ▸ hfree) hkept.nodes hbuilt
    (hv.trans hkept.virtualNodes.symm) hsame
  -- both select from the owners met from the key on: healthy ones, active ones
  have hagree : (hr.owners (hash key)).filter lb.isHealthy =
      (hr.owners (hash key)).filter hr.isActive := by
    refine filter_congr fun id hid => hhealth id ((hsame id).mpr ?_)
    exact hkept.placed.mem_owners.mp hid
  have hselected : ∀ nodes, (lb.selectConsistentHash hash choices key nodes
      (if count ≤ 0 then 1 else count.toNat)).map NodeInfo.id =
        hr.firstActive (hash key) count := by
    intro nodes
    rw [map_selectConsistentHash hfresh.keyed hpoints hne, hagree,
      ← filter_distinctFrom hr.isActive (fun _ _ => Iff.rfl)]
    rfl
  have hactive : (hr.firstActive (hash key) count).length ≠ 0 :=
    hkept.placed.firstActive_ne_nil ((hsame first).mp hfirst)
      ((hhealth first hfirst).symm.trans hhealthy) _ _
  refine ⟨lb.selectConsistentHash hash choices key (lb.getHealthyNodes choices.order)
    (if count ≤ 0 then 1 else count.toNat), ?_, ?_⟩
  · rw [selectNodes, if_neg (getHealthyNodes_ne_nil hhealthy _)]
    rw [hpolicy]
  · rw [hselected, hkept.placed.getNodes hfuel hnodes key hcount, if_neg hactive]

end Proofs

/-- The characters that `spreadHash` has put together. -/
def spelled (h : UInt64) : List Char :=
  ((range 8).reverse.map fun k => Char.ofNat (h.toNat / 256 ^ k % 256)).dropWhile
    (· = Char.ofNat 0)

/-- There are no collisions if the keys can be read off their hashes. -/
theorem noCollisions_of_spelled {v : Nat} {nodeIDs : List String}
    (h : ∀ id ∈ nodeIDs, ∀ i < v,
      spelled (spreadHash (virtualKey id i)) = (virtualKey id i).toList) :
    NoCollisions spreadHash v nodeIDs := by
  intro id hid i hi id' hid' i' hi' heq
  refine String.toList_injective ?_
  rw [← h id hid i hi, heq, h id' hid' i' hi']

/-- The server knows two nodes. -/
def serverHistory : List RingOp := [.addNode ⟨"a", .active⟩, .addNode ⟨"b", .active⟩]

/-- The client starts with another policy, and drops a third node. -/
def clientHistory : List BalancerCall :=
  [.addNode ⟨"d", true, 1, 0⟩ .asGiven, .addNode ⟨"a", true, 1, 0⟩ .asGiven,
    .updatePolicy .consistent .asGiven, .removeNode "d" .asGiven,
    .addNode ⟨"b", true, 1, 0⟩ .asGiven]

/-- The ring of the server has the default number of virtual nodes, which is the client's. -/
theorem placement_agrees_two :
    ∃ selected, ((balancerAfter spreadHash .roundRobin clientHistory).selectNodes spreadHash
        ⟨.asGiven, .asGiven, fun _ => 0⟩ "k" 2).2 = some (.ok selected) ∧
      (ringAfter spreadHash 0 serverHistory).getNodes spreadHash
          ((ringAfter spreadHash 0 serverHistory).sortedHashes.length + 1) "k" 2 =
        some (.ok (selected.map NodeInfo.id)) := by
  have hfree : NoCollisions spreadHash (newHashRing 0).virtualNodes ["a", "b"] :=
    noCollisions_of_spelled (by decide +kernel)
  have hops : ∀ op ∈ serverHistory, op.Within ["a", "b"] := by decide
  have hclient : (balancerAfter spreadHash .roundRobin clientHistory).nodes.keys = ["b", "a"] := by
    decide +kernel
  have hserver : (ringAfter spreadHash 0 serverHistory).nodes.keys = ["b", "a"] := by
    decide +kernel
  refine placement_agrees rfl hfree hops rfl rfl (by decide +kernel) (fun id => ?_)
    (fun id hid => ?_) ⟨"b", by decide +kernel, by decide +kernel⟩ _ _ _ (by decide)
    (Nat.lt_add_one _)
  · rw [AList.mem_keys, AList.mem_keys, hserver, hclient]
  · rw [AList.mem_keys, hclient] at hid
    revert id
    decide +kernel

/-- A server with one virtual node for each node places the key on `b`; the client, which has 150,
selects `a`. -/
theorem placement_disagrees :
    NoCollisions spreadHash (newHashRing 1).virtualNodes ["a", "b"] ∧
      (ringAfter spreadHash 1 serverHistory).getNodes spreadHash 3 "a:5" 1 =
        some (.ok ["b"]) ∧
      ((balancerAfter spreadHash .roundRobin clientHistory).selectNodes spreadHash
        ⟨.asGiven, .asGiven, fun _ => 0⟩ "a:5" 1).2 = some (.ok [⟨"a", true, 1, 0⟩]) :=
  ⟨by decide +kernel, by decide +kernel, by decide +kernel⟩

end DistributedKV.Client
