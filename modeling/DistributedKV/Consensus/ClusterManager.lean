import Mathlib.Data.Finset.Insert
import Mathlib.Data.Finset.Erase
import DistributedKV.Lib.GoMap
import DistributedKV.Consensus.Cluster

/-!
# The cluster manager (`cluster.go`)

A `ClusterManager` records its members three times: as the keys of the node map, in the list of
node configurations, and as the peers of every node. `Bootstrap`, `AddNode` and `RemoveNode`
update the three in turn and may return early in between: `createNode` has put the node into the
map before it cannot listen on its address, and nothing takes it out.

What `NewRaftNode` and `net.Listen` answer is an input. Between two calls the nodes run; of them
it is assumed that name and peers stay (`SameConfig`).
-/

namespace DistributedKV.Consensus

open AList GoMap List

/-- `NodeConfig`. -/
structure NodeConfig where
  nodeID : String
  address : String
  raftPort : Int
  grpcPort : Int

/-- `ClusterManager`; of the gRPC servers and the listeners it is kept which nodes have one. -/
structure ClusterManager where
  nodes : GoMap String RaftNode
  config : List NodeConfig
  grpcServers : Finset String
  listeners : Finset String

/-- How the calls of `createNode` that may fail end: `NewRaftNode`, on its files, and
`net.Listen`. -/
structure CreateOutcome where
  raftNode : Except String NodeFiles
  listenError : Option String

/-- How a call of the manager ends. -/
inductive CallResult where
  | ok
  | error (text : String)
  | panic
deriving DecidableEq, Repr

/-- `NewClusterManager`. -/
def newClusterManager (config : List NodeConfig) : ClusterManager :=
  { nodes := ∅, config := config, grpcServers := ∅, listeners := ∅ }

namespace ClusterManager

variable (cm : ClusterManager)

/-- The configured node ids. -/
def ids : List String := cm.config.map NodeConfig.nodeID

/-- `startGRPCServer`. -/
def startGRPCServer (nodeConfig : NodeConfig) (listenError : Option String) :
    ClusterManager × Option String :=
  match listenError with
  | some err =>
    (cm, some ("failed to listen on " ++ nodeConfig.address ++ ":" ++
      toString nodeConfig.grpcPort ++ ": " ++ err))
  | none =>
    ({ cm with
        listeners := insert nodeConfig.nodeID cm.listeners
        grpcServers := insert nodeConfig.nodeID cm.grpcServers },
      none)

/-- `createNode`. The node is in the map before its server is started, and stays if that fails.
-/
def createNode (nodeConfig : NodeConfig) (outcome : CreateOutcome) :
    ClusterManager × Option String :=
  match outcome.raftNode with
  | .error err => (cm, some ("failed to create Raft node: " ++ err))
  | .ok files =>
    let cm := { cm with
      nodes := cm.nodes.insert nodeConfig.nodeID (newRaftNode nodeConfig.nodeID files) }
    match cm.startGRPCServer nodeConfig outcome.listenError with
    | (cm, some err) => (cm, some ("failed to start gRPC server: " ++ err))
    | (cm, none) => (cm, none)

/-- The first loop of `Bootstrap`; `outcome i` is what the `i`-th turn meets. -/
def createNodes (outcome : Nat → CreateOutcome) :
    ClusterManager → Nat → List NodeConfig → ClusterManager × CallResult
  | cm, _, [] => (cm, .ok)
  | cm, i, nodeConfig :: rest =>
    match cm.createNode nodeConfig (outcome i) with
    | (cm, some err) =>
      (cm, .error ("failed to create node " ++ nodeConfig.nodeID ++ ": " ++ err))
    | (cm, none) => createNodes outcome cm (i + 1) rest

/-- The second loop of `Bootstrap`: every node gets all other members as peers. -/
def connectNodes : ClusterManager :=
  { cm with
    nodes := cm.ids.foldl (fun nodes id => GoMap.modify nodes id fun node =>
      (meshPeers cm.ids id).foldl RaftNode.addPeer node) cm.nodes }

/-- `Bootstrap`. -/
def bootstrap (outcome : Nat → CreateOutcome) :
    ClusterManager × CallResult :=
  match createNodes outcome cm 0 cm.config with
  | (cm, .ok) => (cm.connectNodes, .ok)
  | failed => failed

/-- `AddNode`. -/
def addNode (nodeConfig : NodeConfig) (outcome : CreateOutcome) :
    ClusterManager × CallResult :=
  if nodeConfig.nodeID ∈ cm.nodes then
    (cm, .error ("node " ++ nodeConfig.nodeID ++ " already exists in cluster"))
  else
    match cm.createNode nodeConfig outcome with
    | (cm, some err) => (cm, .error ("failed to create new node: " ++ err))
    | (cm, none) =>
      let nodes := GoMap.modify cm.nodes nodeConfig.nodeID fun newNode =>
        (meshPeers cm.ids nodeConfig.nodeID).foldl RaftNode.addPeer newNode
      let nodes := GoMap.mapValues nodes fun existingNode =>
        if existingNode.id ≠ nodeConfig.nodeID then existingNode.addPeer nodeConfig.nodeID
        else existingNode
      ({ cm with nodes := nodes, config := cm.config ++ [nodeConfig] }, .ok)

/-- `GetLeader`: the first node of the loop that takes itself for the leader, or the empty
string. -/
def getLeader (order : IterationOrder ((_ : String) × RaftNode)) : String :=
  match (order.pick cm.nodes.entries).find? fun entry => entry.2.state = .leader with
  | some entry => entry.2.id
  | none => ""

/-- `GetNode`. -/
def getNode (nodeID : String) : Option RaftNode := cm.nodes.lookup nodeID

/-- `RemoveNode`. The new list is allocated with one less than the old length: a panic if empty.
-/
def removeNode (nodeID : String) : ClusterManager × CallResult :=
  if nodeID ∉ cm.nodes then (cm, .error ("node " ++ nodeID ++ " not found in cluster"))
  else
    let nodes := GoMap.mapValues cm.nodes fun existingNode =>
      if existingNode.id ≠ nodeID then existingNode.removePeer nodeID else existingNode
    let cm := { cm with
      grpcServers := cm.grpcServers.erase nodeID
      listeners := cm.listeners.erase nodeID
      nodes := nodes.erase nodeID }
    if cm.config = [] then (cm, .panic)
    else ({ cm with config := cm.config.filter fun c => c.nodeID ≠ nodeID }, .ok)

/-! ## Runs of calls -/

/-- What may happen to a manager: a call, or a node that runs and comes to another
state. -/
inductive Call where
  | addNode (nodeConfig : NodeConfig) (outcome : CreateOutcome)
  | removeNode (nodeID : String)
  | nodeRuns (nodeID : String) (node : RaftNode)

/-- One step of a manager. -/
def step : Call → Option ClusterManager
  | .addNode nodeConfig outcome => some (cm.addNode nodeConfig outcome).1
  | .removeNode nodeID => some (cm.removeNode nodeID).1
  | .nodeRuns nodeID node =>
    (cm.nodes.lookup nodeID).bind fun old =>
      if node.id = old.id ∧ node.peers = old.peers then
        some { cm with nodes := cm.nodes.insert nodeID node }
      else none

/-- Every node is stored under its own name. -/
def Keyed : Prop :=
  ∀ id node, cm.nodes.lookup id = some node → node.id = id

/-- **The mesh.** The map has exactly the configured ids, and each node all others as peers. -/
structure Meshed (cm : ClusterManager) : Prop where
  keys : ∀ id, id ∈ cm.nodes ↔ id ∈ cm.ids
  peers : ∀ id node, cm.nodes.lookup id = some node →
    ∀ p, p ∈ node.peers ↔ p ≠ id ∧ p ∈ cm.nodes

/-- The call does not create a node that then cannot listen. -/
def Listens : Call → Prop
  | .addNode nodeConfig outcome =>
    nodeConfig.nodeID ∉ cm.nodes → outcome.raftNode.isOk = true → outcome.listenError = none
  | _ => True

/-- A failing `AddNode` leaves everything as it was, and a free id can be added another time. -/
def FailedAddHarmless : Call → Prop
  | .addNode nodeConfig outcome =>
    (cm.addNode nodeConfig outcome).2 ≠ .ok →
      (cm.addNode nodeConfig outcome).1.nodes = cm.nodes ∧
      (cm.addNode nodeConfig outcome).1.config = cm.config ∧
      (nodeConfig.nodeID ∉ cm.nodes → ∀ files,
        ((cm.addNode nodeConfig outcome).1.addNode nodeConfig ⟨.ok files, none⟩).2 = .ok)
  | _ => True

end ClusterManager

/-! ## Peers of one node -/

namespace RaftNode

@[simp] theorem id_foldl_addPeer (ids : List String) (rn : RaftNode) :
    (ids.foldl addPeer rn).id = rn.id := by
  induction ids generalizing rn with
  | nil => rfl
  | cons p ids ih => rw [foldl_cons, ih, id_addPeer]

@[simp] theorem mem_peers_foldl_addPeer {ids : List String} {rn : RaftNode} {q : String} :
    q ∈ (ids.foldl addPeer rn).peers ↔ q ∈ rn.peers ∨ q ∈ ids := by
  induction ids generalizing rn with
  | nil => simp
  | cons p ids ih => rw [foldl_cons, ih, mem_peers_addPeer, mem_cons, or_assoc]

@[simp] theorem mem_peers_removePeer {rn : RaftNode} {p q : String} :
    q ∈ (rn.removePeer p).peers ↔ q ∈ rn.peers ∧ q ≠ p := by
  simp [removePeer]

end RaftNode

namespace ClusterManager

variable {cm cm' : ClusterManager} {nodeConfig : NodeConfig} {outcome : CreateOutcome}
  {nodeID : String}

/-! ## What each call does -/

/-- The manager once `createNode` has stored the node. -/
def stored (cm : ClusterManager) (nodeConfig : NodeConfig) (files : NodeFiles) : ClusterManager :=
  { cm with nodes := cm.nodes.insert nodeConfig.nodeID (newRaftNode nodeConfig.nodeID files) }

/-- `createNode` fails without a trace, fails with the node in the map, or
succeeds. -/
theorem createNode_cases (cm : ClusterManager) (nodeConfig : NodeConfig) (outcome : CreateOutcome) :
    (∃ e text, outcome.raftNode = .error e ∧ cm.createNode nodeConfig outcome = (cm, some text)) ∨
    (∃ files e text, outcome.raftNode = .ok files ∧ outcome.listenError = some e ∧
      cm.createNode nodeConfig outcome = (cm.stored nodeConfig files, some text)) ∨
    (∃ files cm', outcome.raftNode = .ok files ∧ outcome.listenError = none ∧
      cm.createNode nodeConfig outcome = (cm', none) ∧
      cm'.nodes = (cm.stored nodeConfig files).nodes ∧ cm'.config = cm.config) := by
  cases hraft : outcome.raftNode with
  | error e => exact Or.inl ⟨e, _, rfl, by rw [createNode, hraft]⟩
  | ok files =>
    cases hlisten : outcome.listenError with
    | some e =>
      exact Or.inr (Or.inl ⟨files, e, _, rfl, rfl, by
        rw [createNode, hraft, hlisten]; rfl⟩)
    | none =>
      refine Or.inr (Or.inr ⟨files, _, rfl, rfl, by rw [createNode, hraft, hlisten]; rfl, ?_⟩)
      exact ⟨rfl, rfl⟩

/-- After a successful `AddNode` the new node knows the members and everybody else knows it. -/
structure Added (cm : ClusterManager) (nodeConfig : NodeConfig) (files : NodeFiles)
    (cm' : ClusterManager) : Prop where
  config : cm'.config = cm.config ++ [nodeConfig]
  self : cm'.nodes.lookup nodeConfig.nodeID = some
    ((meshPeers cm.ids nodeConfig.nodeID).foldl RaftNode.addPeer
      (newRaftNode nodeConfig.nodeID files))
  others : ∀ id, id ≠ nodeConfig.nodeID →
    cm'.nodes.lookup id = (cm.nodes.lookup id).map fun node =>
      if node.id ≠ nodeConfig.nodeID then node.addPeer nodeConfig.nodeID else node

theorem addNode_cases (cm : ClusterManager) (nodeConfig : NodeConfig) (outcome : CreateOutcome) :
    (nodeConfig.nodeID ∈ cm.nodes ∧ ∃ text, cm.addNode nodeConfig outcome = (cm, .error text)) ∨
    (nodeConfig.nodeID ∉ cm.nodes ∧ (∃ e, outcome.raftNode = .error e) ∧
      ∃ text, cm.addNode nodeConfig outcome = (cm, .error text)) ∨
    (nodeConfig.nodeID ∉ cm.nodes ∧ ∃ files e text, outcome.raftNode = .ok files ∧
      outcome.listenError = some e ∧
      cm.addNode nodeConfig outcome = (cm.stored nodeConfig files, .error text)) ∨
    (nodeConfig.nodeID ∉ cm.nodes ∧ ∃ files cm', outcome.raftNode = .ok files ∧
      outcome.listenError = none ∧ cm.addNode nodeConfig outcome = (cm', .ok) ∧
      cm.Added nodeConfig files cm') := by
  by_cases hmem : nodeConfig.nodeID ∈ cm.nodes
  · exact Or.inl ⟨hmem, _, by rw [addNode, if_pos hmem]⟩
  right
  rcases createNode_cases cm nodeConfig outcome with
    ⟨e, text, hraft, heq⟩ | ⟨files, e, text, hraft, hlisten, heq⟩ |
      ⟨files, t, hraft, hlisten, heq, hnodes, hconfig⟩
  · exact Or.inl ⟨hmem, ⟨e, hraft⟩, _, by rw [addNode, if_neg hmem, heq]⟩
  · exact Or.inr (Or.inl ⟨hmem, files, e, _, hraft, hlisten, by rw [addNode, if_neg hmem, heq]⟩)
  refine Or.inr (Or.inr ⟨hmem, files, _, hraft, hlisten, by rw [addNode, if_neg hmem, heq], ?_⟩)
  have hids : t.ids = cm.ids := by rw [ids, hconfig, ids]
  constructor
  · exact congrArg (· ++ [nodeConfig]) hconfig
  · rw [lookup_mapValues, lookup_modify, if_pos rfl, hnodes, hids]
    simp [stored, newRaftNode]
  · intro id hne
    rw [lookup_mapValues, lookup_modify, if_neg hne, hnodes, stored, lookup_insert_ne hne]

/-- The three ways in which `RemoveNode` ends; the panic comes with the node gone from the map.
-/
theorem removeNode_cases (cm : ClusterManager) (nodeID : String) :
    (nodeID ∉ cm.nodes ∧ (cm.removeNode nodeID).1 = cm) ∨ (nodeID ∈ cm.nodes ∧
      (cm.removeNode nodeID).1.config = cm.config.filter (fun c => c.nodeID ≠ nodeID) ∧
      (cm.removeNode nodeID).1.nodes = ((GoMap.mapValues cm.nodes fun existingNode =>
        if existingNode.id ≠ nodeID then existingNode.removePeer nodeID
        else existingNode).erase nodeID)) := by
  by_cases hmem : nodeID ∈ cm.nodes
  · right
    rw [removeNode, if_neg (not_not.mpr hmem)]
    by_cases hempty : cm.config = [] <;> simp [hmem, hempty]
  · exact Or.inl ⟨hmem, by rw [removeNode, if_pos hmem]⟩

/-! ## Bootstrap -/

/-- What the loop of `Bootstrap` creates: the configured nodes, each fresh from its files. -/
structure Created (outcome : Nat → CreateOutcome) (cm : ClusterManager) (nodeIDs : List String)
    (cm' : ClusterManager) : Prop where
  config : cm'.config = cm.config
  mem : ∀ id, id ∈ cm'.nodes ↔ id ∈ cm.nodes ∨ id ∈ nodeIDs
  fresh : ∀ id ∈ nodeIDs, ∃ i files, (outcome i).raftNode = .ok files ∧
    cm'.nodes.lookup id = some (newRaftNode id files)
  old : ∀ id, id ∉ nodeIDs → cm'.nodes.lookup id = cm.nodes.lookup id

open NodeConfig

theorem createNodes_created {outcome : Nat → CreateOutcome} {i : Nat} {configs : List NodeConfig}
    (h : createNodes outcome cm i configs = (cm', .ok)) :
    Created outcome cm (configs.map NodeConfig.nodeID) cm' := by
  induction configs generalizing cm i with
  | nil =>
    obtain rfl : cm = cm' := congrArg Prod.fst h
    exact ⟨rfl, by simp, by simp, by simp⟩
  | cons c rest ih =>
    rw [createNodes] at h
    split at h
    · cases h
    next t hcreate =>
      rcases createNode_cases cm c _ with ⟨e, text, -, heq⟩ | ⟨files, e, text, -, -, heq⟩ |
        ⟨files, t', hfiles, -, heq, hnodes, hconfig⟩ <;> cases heq.symm.trans hcreate
      have hrest := ih h
      constructor
      · rw [hrest.config, hconfig]
      · intro id
        rw [hrest.mem, hnodes, stored, mem_insert, map_cons, mem_cons]
        tauto
      · intro id hid
        by_cases hlater : id ∈ rest.map nodeID
        · exact hrest.fresh id hlater
        · obtain rfl : id = c.nodeID := by simpa [hlater] using hid
          exact ⟨i, files, hfiles, by rw [hrest.old _ hlater, hnodes, stored, lookup_insert]⟩
      · intro id hid
        rw [map_cons, mem_cons, not_or] at hid
        rw [hrest.old id hid.2, hnodes, stored, lookup_insert_ne hid.1]

open RaftNode

/-- The connecting loop touches each listed node once per listing; doing it again
adds no peer. -/
theorem lookup_foldl_modify {nodes : GoMap String RaftNode} {nodeIDs members : List String}
    (hnodup : nodeIDs.Nodup) (id : String) :
    (nodeIDs.foldl (fun nodes id => GoMap.modify nodes id fun node =>
      (meshPeers members id).foldl addPeer node) nodes).lookup id =
    if id ∈ nodeIDs then (nodes.lookup id).map fun node => (meshPeers members id).foldl addPeer node
    else nodes.lookup id := by
  induction nodeIDs generalizing nodes with
  | nil => simp
  | cons first rest ih =>
    rw [foldl_cons, ih hnodup.of_cons, lookup_modify]
    by_cases hfirst : id = first
    · subst hfirst
      simp [nodup_cons.mp hnodup]
    · simp [hfirst]

variable {config : List NodeConfig} {id : String} {files : NodeFiles} {call : Call}

section

variable (hdistinct : (config.map NodeConfig.nodeID).Nodup)
include hdistinct

section

variable {outcome : Nat → CreateOutcome}
  (hboot : (newClusterManager config).bootstrap outcome = (cm, .ok))
include hboot

/-- **Bootstrap, node by node.** -/
theorem bootstrap_lookup : cm.config = config ∧
    (∀ id, id ∈ cm.nodes ↔ id ∈ config.map NodeConfig.nodeID) ∧
    ∀ id ∈ config.map NodeConfig.nodeID, ∃ i files, (outcome i).raftNode = .ok files ∧
      cm.nodes.lookup id = some ((meshPeers (config.map NodeConfig.nodeID) id).foldl addPeer
        (newRaftNode id files)) := by
  rw [bootstrap] at hboot
  split at hboot
  · next t hcreated =>
    obtain rfl : t.connectNodes = cm := congrArg Prod.fst hboot
    have hall := createNodes_created hcreated
    have hids : t.ids = config.map nodeID := by rw [ids, hall.config]; rfl
    have hlookup : ∀ id, t.connectNodes.nodes.lookup id = if id ∈ config.map nodeID then
        (t.nodes.lookup id).map fun node =>
          (meshPeers (config.map nodeID) id).foldl addPeer node
        else t.nodes.lookup id := by
      intro id
      rw [connectNodes, hids]
      exact lookup_foldl_modify hdistinct id
    refine ⟨hall.config, fun id => ?_, fun id hid => ?_⟩
    · rw [← lookup_isSome, hlookup]
      have hmem := hall.mem id
      rw [← lookup_isSome] at hmem
      split <;> simp_all [newClusterManager]
    · obtain ⟨i, files, hfound, hfiles⟩ := hall.fresh id hid
      exact ⟨i, files, hfound, by rw [hlookup, if_pos hid, hfiles]; rfl⟩
  · next hfailed => exact absurd hboot (hfailed cm)

/-- A successful `Bootstrap` builds the mesh. -/
theorem bootstrap_meshed : cm.Keyed ∧ cm.Meshed := by
  obtain ⟨hconfig, hkeys, hnodes⟩ := bootstrap_lookup hdistinct hboot
  have hnode : ∀ id node, cm.nodes.lookup id = some node → ∃ files,
      node = (meshPeers (config.map nodeID) id).foldl addPeer
        (newRaftNode id files) := by
    intro id node hlook
    obtain ⟨-, files, -, hfiles⟩ := hnodes id ((hkeys id).mp (mem_of_lookup hlook))
    exact ⟨files, Option.some.inj (hlook.symm.trans hfiles)⟩
  refine ⟨fun id node hlook => ?_, ⟨fun id => by rw [hkeys, ids, hconfig], ?_⟩⟩
  · obtain ⟨files, rfl⟩ := hnode id node hlook
    simp [newRaftNode]
  intro id node hlook p
  obtain ⟨files, rfl⟩ := hnode id node hlook
  simp [mem_meshPeers, hkeys, newRaftNode, and_comm]

/-- On empty directories `Bootstrap` builds the cluster that the consensus
results start from. -/
theorem bootstrap_eq_init (hempty : ∀ i files, (outcome i).raftNode = .ok files → files = .none)
    (hid : id ∈ config.map NodeConfig.nodeID) :
    cm.nodes.lookup id = some ((Cluster.init (config.map NodeConfig.nodeID)).nodes id) := by
  obtain ⟨-, -, hnodes⟩ := bootstrap_lookup hdistinct hboot
  obtain ⟨i, files, hfound, hlook⟩ := hnodes id hid
  obtain rfl := hempty i files hfound
  exact hlook

end

end

/-! ## One step -/

theorem Added.mem (h : cm.Added nodeConfig files cm') :
    id ∈ cm'.nodes ↔ id = nodeConfig.nodeID ∨ id ∈ cm.nodes := by
  rw [← lookup_isSome]
  by_cases hid : id = nodeConfig.nodeID
  · subst hid
    simp [h.self]
  · simp [h.others id hid, hid, lookup_isSome]

theorem keyed_step (hkeyed : cm.Keyed) (h : cm.step call = some cm') : cm'.Keyed := by
  intro id node hlook
  cases call with
  | addNode nodeConfig outcome =>
    cases h
    rcases addNode_cases cm nodeConfig outcome with
      ⟨-, text, heq⟩ | ⟨-, -, text, heq⟩ | ⟨-, files, e, text, -, -, heq⟩ |
        ⟨-, files, t, -, -, heq, hadded⟩ <;> rw [heq] at hlook
    · exact hkeyed id node hlook
    · exact hkeyed id node hlook
    · rcases lookup_insert_eq_some.mp hlook with ⟨rfl, rfl⟩ | ⟨-, hlook⟩
      · rfl
      · exact hkeyed id node hlook
    by_cases hid : id = nodeConfig.nodeID
    · subst hid
      obtain rfl := Option.some.inj (hadded.self.symm.trans hlook)
      simp [newRaftNode]
    rw [hadded.others id hid] at hlook
    obtain ⟨old, hold, rfl⟩ := Option.map_eq_some_iff.mp hlook
    have := hkeyed id old hold
    split <;> simpa
  | removeNode nodeID =>
    cases h
    rcases removeNode_cases cm nodeID with ⟨-, heq⟩ | ⟨-, -, hnodes⟩
    · rw [heq] at hlook
      exact hkeyed id node hlook
    rw [hnodes, lookup_erase_eq_some, lookup_mapValues] at hlook
    obtain ⟨old, hold, rfl⟩ := Option.map_eq_some_iff.mp hlook.2
    have := hkeyed id old hold
    split <;> exact this
  | nodeRuns nodeID running =>
    obtain ⟨old, hold, hstep⟩ := Option.bind_eq_some_iff.mp h
    split at hstep
    · next hsame =>
      cases hstep
      rcases lookup_insert_eq_some.mp hlook with ⟨rfl, rfl⟩ | ⟨-, hlook⟩
      · rw [hsame.1, hkeyed id old hold]
      · exact hkeyed id node hlook
    · cases hstep

theorem Added.meshed (hadded : cm.Added nodeConfig files cm') (hkeyed : cm.Keyed)
    (hmesh : cm.Meshed) : cm'.Meshed := by
  constructor
  · intro id
    rw [hadded.mem, hmesh.keys, ids, ids, hadded.config]
    simp [or_comm]
  intro id node hlook p
  rw [hadded.mem]
  by_cases hid : id = nodeConfig.nodeID
  · subst hid
    obtain rfl := Option.some.inj (hadded.self.symm.trans hlook)
    rw [mem_peers_foldl_addPeer, mem_meshPeers, ← hmesh.keys]
    tauto
  rw [hadded.others id hid] at hlook
  obtain ⟨old, hold, rfl⟩ := Option.map_eq_some_iff.mp hlook
  rw [if_pos (by rw [hkeyed id old hold]; exact hid), mem_peers_addPeer, hmesh.peers id old hold]
  grind

theorem removeNode_meshed (hkeyed : cm.Keyed) (hmesh : cm.Meshed) (nodeID : String) :
    (cm.removeNode nodeID).1.Meshed := by
  rcases removeNode_cases cm nodeID with ⟨-, heq⟩ | ⟨-, hconfig, hnodes⟩
  · rwa [heq]
  constructor
  · intro id
    rw [hnodes, mem_erase, mem_mapValues, hmesh.keys, ids, ids, hconfig]
    simp only [mem_map, mem_filter, decide_eq_true_eq]
    grind
  · intro id node hlook p
    rw [hnodes, lookup_erase_eq_some, lookup_mapValues] at hlook
    obtain ⟨hid, hlook⟩ := hlook
    obtain ⟨old, hold, rfl⟩ := Option.map_eq_some_iff.mp hlook
    rw [if_pos (by rw [hkeyed id old hold]; exact hid), mem_peers_removePeer,
      hmesh.peers id old hold, hnodes, mem_erase, mem_mapValues]
    tauto

/-- A node that runs changes nothing that the mesh speaks of. -/
theorem nodeRuns_meshed (hmesh : cm.Meshed) {running : RaftNode}
    (h : cm.step (.nodeRuns nodeID running) = some cm') : cm'.Meshed := by
  obtain ⟨old, hold, hstep⟩ := Option.bind_eq_some_iff.mp h
  split at hstep
  · next hsame =>
    cases hstep
    have hmem : ∀ id, id ∈ cm.nodes.insert nodeID running ↔ id ∈ cm.nodes := by
      intro id
      rw [mem_insert, or_iff_right_iff_imp]
      rintro rfl
      exact mem_of_lookup hold
    constructor
    · intro id
      rw [hmem]
      exact hmesh.keys id
    intro id node hlook p
    rw [hmem]
    rcases lookup_insert_eq_some.mp hlook with ⟨rfl, rfl⟩ | ⟨-, hlook⟩
    · rw [hsame.2]
      exact hmesh.peers id old hold p
    · exact hmesh.peers id node hlook p
  · cases hstep

theorem meshed_step (hkeyed : cm.Keyed) (hmesh : cm.Meshed) (hlistens : cm.Listens call)
    (h : cm.step call = some cm') : cm'.Meshed := by
  cases call with
  | addNode nodeConfig outcome =>
    cases h
    rcases addNode_cases cm nodeConfig outcome with
      ⟨-, text, heq⟩ | ⟨-, -, text, heq⟩ | ⟨hfree, files, e, text, hraft, hlisten, heq⟩ |
        ⟨-, files, t, -, -, heq, hadded⟩
    · rwa [heq]
    · rwa [heq]
    · exact absurd (hlistens hfree (by rw [hraft]; rfl)) (by simp [hlisten])
    · rw [heq]
      exact hadded.meshed hkeyed hmesh
  | removeNode nodeID =>
    cases h
    exact removeNode_meshed hkeyed hmesh nodeID
  | nodeRuns nodeID running => exact nodeRuns_meshed hmesh h

/-- The other calls leave a node in the map that is not configured. -/
theorem step_not_meshed (hmesh : cm.Meshed) (hfails : ¬cm.Listens call) :
    ∃ t, cm.step call = some t ∧ ¬t.Meshed := by
  cases call with
  | addNode nodeConfig outcome =>
    refine ⟨_, rfl, fun hmesh' => ?_⟩
    simp only [Listens, Classical.not_imp] at hfails
    obtain ⟨hfree, hok, hlisten⟩ := hfails
    rcases addNode_cases cm nodeConfig outcome with
      ⟨hmem, -⟩ | ⟨-, ⟨e, hraft⟩, -⟩ | ⟨-, files, e, text, -, -, heq⟩ | ⟨-, _, _, -, hnone, -⟩
    · exact hfree hmem
    · rw [hraft] at hok
      cases hok
    · rw [heq] at hmesh'
      have hconfigured := (hmesh'.keys nodeConfig.nodeID).mp
        ((mem_insert cm.nodes).mpr (Or.inl rfl))
      exact hfree ((hmesh.keys _).mpr hconfigured)
    · exact hlisten hnone
  | removeNode nodeID => exact absurd trivial hfails
  | nodeRuns nodeID running => exact absurd trivial hfails

theorem failedAddHarmless_of_listens (cm : ClusterManager) (call : Call)
    (hlistens : cm.Listens call) : cm.FailedAddHarmless call := by
  cases call with
  | removeNode nodeID => trivial
  | nodeRuns nodeID running => trivial
  | addNode nodeConfig outcome =>
    intro hfailed
    have hretry : nodeConfig.nodeID ∉ cm.nodes → ∀ files,
        (cm.addNode nodeConfig ⟨.ok files, none⟩).2 = .ok := by
      intro hfree files
      rcases addNode_cases cm nodeConfig ⟨.ok files, none⟩ with
        ⟨hmem, -⟩ | ⟨-, ⟨e, hraft⟩, -⟩ | ⟨-, _, _, _, -, hlisten, -⟩ | ⟨-, _, _, -, -, heq, -⟩
      · exact absurd hmem hfree
      · cases hraft
      · cases hlisten
      · rw [heq]
    rcases addNode_cases cm nodeConfig outcome with
      ⟨-, text, heq⟩ | ⟨-, -, text, heq⟩ | ⟨hfree, files, e, text, hraft, hlisten, heq⟩ |
        ⟨-, files, t, -, -, heq, -⟩
    · rw [heq]
      exact ⟨rfl, rfl, hretry⟩
    · rw [heq]
      exact ⟨rfl, rfl, hretry⟩
    · exact absurd (hlistens hfree (by rw [hraft]; rfl)) (by simp [hlisten])
    · exact absurd (by rw [heq]) hfailed

/-! ## Whole runs -/

/-- **Cluster membership mesh.** Along any run on a bootstrapped manager, map, configuration and
peers agree and a failing `AddNode` has no effect, exactly as long as every created node can
listen. -/
theorem mesh_iff_listens {config : List NodeConfig} {outcome : Nat → CreateOutcome}
    (hdistinct : (config.map NodeConfig.nodeID).Nodup)
    (hboot : (newClusterManager config).bootstrap outcome = (cm, .ok)) (calls : List Call) :
    ((∀ t ∈ Lts.trace step cm calls, t.Meshed) ∧ Lts.Along step FailedAddHarmless cm calls) ↔
      Lts.Along step Listens cm calls := by
  obtain ⟨hkeyed, hmesh⟩ := bootstrap_meshed hdistinct hboot
  have hiff : (∀ t ∈ Lts.trace step cm calls, t.Meshed) ↔ Lts.Along step Listens cm calls :=
    Lts.forall_trace_iff_along (fun _ _ _ hinv hs => keyed_step hinv hs)
      (fun _ _ _ hinv hgood hok hs => meshed_step hinv hgood hok hs)
      (fun _ _ _ hgood hbad => step_not_meshed hgood hbad) calls cm hkeyed hmesh
  constructor
  · rintro ⟨hall, -⟩
    exact hiff.mp hall
  · intro halong
    exact ⟨hiff.mpr halong, halong.mono failedAddHarmless_of_listens⟩

/-- Two nodes. -/
def pairConfig : List NodeConfig :=
  [⟨"n1", "localhost", 8000, 9000⟩, ⟨"n2", "localhost", 8001, 9001⟩]

/-- A third one. -/
def thirdNode : NodeConfig := ⟨"n3", "localhost", 8002, 9002⟩

/-- The directory is empty and the address is free. -/
def works : CreateOutcome := ⟨.ok .none, none⟩

/-- The manager of `pairConfig` after `Bootstrap`. -/
def bootstrappedPair : ClusterManager :=
  ((newClusterManager pairConfig).bootstrap fun _ => works).1

theorem bootstrap_eq_init_pair :
    bootstrappedPair.nodes.lookup "n1" = some ((Cluster.init ["n1", "n2"]).nodes "n1") := by
  have hboot : (newClusterManager pairConfig).bootstrap (fun _ => works) =
      (bootstrappedPair, .ok) := rfl
  exact bootstrap_eq_init (by decide) hboot (by rintro _ _ ⟨⟩; rfl) (by decide)

theorem mesh_iff_listens_pair :
    (∀ t ∈ Lts.trace step bootstrappedPair [.addNode thirdNode works, .removeNode "n1"], t.Meshed) ∧
    Lts.Along step FailedAddHarmless bootstrappedPair
      [.addNode thirdNode works, .removeNode "n1"] := by
  have hboot : (newClusterManager pairConfig).bootstrap (fun _ => works) =
      (bootstrappedPair, .ok) := rfl
  exact (mesh_iff_listens (by decide) hboot _).mpr (by simp [Lts.Along, Listens, works])

/-- A third node whose address is in use: `AddNode` fails and leaves it in the map,
unconfigured, without peers and unknown to the others. A second attempt on a free address is
refused. -/
theorem leftover_node_counterexample :
    let failed := bootstrappedPair.addNode thirdNode ⟨.ok .none, some "address already in use"⟩
    failed.2 = .error ("failed to create new node: failed to start gRPC server: " ++
        "failed to listen on localhost:9002: address already in use") ∧
      "n3" ∉ bootstrappedPair.nodes ∧ "n3" ∈ failed.1.nodes ∧ failed.1.ids = ["n1", "n2"] ∧
      (failed.1.nodes.lookup "n3").map peers = some [] ∧
      (failed.1.addNode thirdNode works).2 = .error "node n3 already exists in cluster" := by
  decide

end ClusterManager

end DistributedKV.Consensus
