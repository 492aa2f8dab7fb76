import DistributedKV.Lib.Quorum
import DistributedKV.Consensus.ClusterManager

/-!
# Majorities (`raft.go`, `cluster.go`)

`getMajority` is `(len(peers) + 2) / 2`, half of the cluster if its size is even. `IsHealthy`
(`cluster.go:363`) counts every node of the map as running; `Stop` leaves the nodes there.

## Main results

* `RunningCluster.quorums`: quorums intersect exactly if the number of peers is even, and a healthy
  cluster has a majority of running nodes as long as no node of the map is stopped. The runs have
  `AddNode`, `RemoveNode`, steps of the nodes and the two calls of `Stop`.
* `RunningCluster.quorums_counterexample`: one peer, and a healthy cluster without a running node.

The counting is `forall_intersect_iff` of the quorum library. The second part is an invariant of
the runs: the mesh of `ClusterManager`, in which every node runs (`AllRun`).
-/

namespace DistributedKV.Consensus

open Lib List

/-! ## Counting members -/

namespace RaftNode

/-- The cluster as a node knows it: itself and its peers. -/
def cluster (rn : RaftNode) : List String := rn.id :: rn.peers

/-- Any two groups of members that have `getMajority` members share one. -/
def QuorumsIntersect (rn : RaftNode) : Prop :=
  ∀ V W : List String, V.Nodup → W.Nodup → V ⊆ rn.cluster → W ⊆ rn.cluster →
    rn.getMajority ≤ V.length → rn.getMajority ≤ W.length → ∃ v ∈ V, v ∈ W

/-- The votes of a round and the replicas that `updateCommitIndex` counts are more than half of
the cluster when they reach `getMajority`. -/
structure CountsAreMajorities (rn : RaftNode) : Prop where
  votes : ∀ round : VoteRound, round.majority = rn.requestVotes.majority →
    round.majority ≤ round.votes → rn.cluster.length < 2 * round.votes
  replicas : ∀ n, rn.getMajority ≤ rn.replicaCount n → rn.cluster.length < 2 * rn.replicaCount n

variable {rn : RaftNode}

theorem length_cluster_lt_iff : rn.cluster.length < 2 * rn.getMajority ↔ Even rn.peers.length := by
  rw [cluster, length_cons, getMajority, Nat.even_iff]
  omega

theorem quorumsIntersect_iff (hcluster : rn.cluster.Nodup) :
    rn.QuorumsIntersect ↔ Even rn.peers.length := by
  rw [← length_cluster_lt_iff]
  exact forall_intersect_iff hcluster rn.getMajority

theorem countsAreMajorities (heven : Even rn.peers.length) : rn.CountsAreMajorities := by
  have hlt := length_cluster_lt_iff.mpr heven
  constructor
  · intro round hround hfull
    have hmajority : round.majority = rn.getMajority := hround
    omega
  · intro n hfull
    omega

end RaftNode

/-! ## Health -/

namespace ClusterManager

/-- One turn of the loop of `IsHealthy`, on the leader seen so far and the count. -/
def countNode (seen : String × Nat) (entry : (_ : String) × RaftNode) : String × Nat :=
  (if entry.2.state = .leader then entry.2.id else seen.1, seen.2 + 1)

/-- `IsHealthy`. Every node of the map is counted as running. -/
def isHealthy (cm : ClusterManager) (order : IterationOrder ((_ : String) × RaftNode)) : Bool :=
  let (leader, runningNodes) := (order.pick cm.nodes.entries).foldl countNode ("", 0)
  let majorityNodes := cm.config.length / 2 + 1
  leader ≠ "" && runningNodes ≥ majorityNodes

end ClusterManager

/-- A manager and the nodes whose goroutines run. -/
structure RunningCluster where
  cm : ClusterManager
  running : Finset String

namespace RunningCluster

variable (s : RunningCluster)

/-- What may happen: a call of the manager, `Stop` of one node, or `Stop` of the manager. -/
inductive Action where
  | call (c : ClusterManager.Call)
  | stopNode (nodeID : String)
  | stop

/-- The manager after `Bootstrap`, which starts all nodes. -/
def start (cm : ClusterManager) : RunningCluster := ⟨cm, cm.nodes.keys.toFinset⟩

/-- The nodes that run after a call: `AddNode` starts the new node if it succeeds, `RemoveNode`
stops the node. -/
def runningAfter : ClusterManager.Call → Finset String
  | .addNode nodeConfig outcome =>
    if (s.cm.addNode nodeConfig outcome).2 = .ok then insert nodeConfig.nodeID s.running
    else s.running
  | .removeNode nodeID => s.running.erase nodeID
  | .nodeRuns _ _ => s.running

/-- One step. A node that is stopped stays in the map, and so do all nodes in `Stop`. That the
source panics when a node is stopped twice is left out. -/
def step : Action → Option RunningCluster
  | .call c => (s.cm.step c).map fun cm => ⟨cm, s.runningAfter c⟩
  | .stopNode nodeID => some { s with running := s.running.erase nodeID }
  | .stop => some { s with running := ∅ }

/-- How many nodes of the map run. -/
def runningCount : Nat :=
  (s.cm.nodes.keys.filter (· ∈ s.running)).length

/-- No node of the map is stopped, and no node is created that cannot listen. -/
def Undisturbed : Action → Prop
  | .call c => s.cm.Listens c
  | .stopNode nodeID => nodeID ∉ s.cm.nodes
  | .stop => s.cm.nodes = ∅

/-- The mesh, in which every node runs. -/
structure AllRun (s : RunningCluster) : Prop where
  keyed : s.cm.Keyed
  meshed : s.cm.Meshed
  running : ∀ id ∈ s.cm.nodes, id ∈ s.running

variable {s t : RunningCluster}

/-- The nodes of the map after a call run. -/
theorem AllRun.runningAfter (h : s.AllRun) {c : ClusterManager.Call} {cm : ClusterManager}
    (hlistens : s.cm.Listens c) (hstep : s.cm.step c = some cm) :
    ∀ id ∈ cm.nodes, id ∈ s.runningAfter c := by
  intro id hid
  cases c with
  | addNode nodeConfig outcome =>
    cases hstep
    rw [RunningCluster.runningAfter]
    rcases s.cm.addNode_cases nodeConfig outcome with
      ⟨-, text, heq⟩ | ⟨-, -, text, heq⟩ | ⟨hnew, files, e, text, hraft, hlisten, -⟩ |
        ⟨-, files, t, -, -, heq, hadded⟩
    · rw [heq] at hid ⊢
      exact h.running id hid
    · rw [heq] at hid ⊢
      exact h.running id hid
    · have hnone := hlistens hnew (by rw [hraft]; rfl)
      rw [hlisten] at hnone
      cases hnone
    · rw [heq] at hid ⊢
      rw [if_pos rfl, Finset.mem_insert]
      exact (hadded.mem.mp hid).imp_right (h.running id)
  | removeNode nodeID =>
    cases hstep
    refine Finset.mem_erase.mpr ?_
    rcases s.cm.removeNode_cases nodeID with ⟨hnot, heq⟩ | ⟨-, -, hnodes⟩
    · rw [heq] at hid
      refine ⟨?_, h.running id hid⟩
      rintro rfl
      exact hnot hid
    · rw [hnodes, AList.mem_erase, GoMap.mem_mapValues] at hid
      exact ⟨hid.1, h.running id hid.2⟩
  | nodeRuns nodeID node =>
    obtain ⟨old, hold, hstep⟩ := Option.bind_eq_some_iff.mp hstep
    split_ifs at hstep
    cases hstep
    rcases AList.mem_insert _ |>.mp hid with rfl | hid
    · exact h.running _ (GoMap.mem_of_lookup hold)
    · exact h.running id hid

/-- One step. -/
theorem AllRun.step (h : s.AllRun) {a : Action} (hok : s.Undisturbed a)
    (hstep : s.step a = some t) : t.AllRun := by
  cases a with
  | call c =>
    obtain ⟨cm, hcm, rfl⟩ := Option.map_eq_some_iff.mp hstep
    exact ⟨ClusterManager.keyed_step h.keyed hcm,
      ClusterManager.meshed_step h.keyed h.meshed hok hcm, h.runningAfter hok hcm⟩
  | stopNode nodeID =>
    cases hstep
    refine ⟨h.keyed, h.meshed, fun id hid => Finset.mem_erase.mpr ⟨?_, h.running id hid⟩⟩
    rintro rfl
    exact hok hid
  | stop =>
    cases hstep
    refine ⟨h.keyed, h.meshed, fun id hid => ?_⟩
    rw [show s.cm.nodes = ∅ from hok] at hid
    exact absurd hid (AList.notMem_empty id)

/-- Where all nodes run, as many do as any of them needs. -/
theorem AllRun.getMajority_le (h : s.AllRun) {id : String} {rn : RaftNode}
    (hrn : s.cm.nodes.lookup id = some rn) (hcluster : rn.cluster.Nodup) :
    rn.getMajority ≤ s.runningCount := by
  have hall : s.runningCount = s.cm.nodes.keys.length := by
    rw [runningCount, filter_eq_self.mpr fun id hid => decide_eq_true (h.running id hid)]
  have hsub : rn.cluster ⊆ s.cm.nodes.keys := by
    intro p hp
    rcases mem_cons.mp hp with rfl | hp
    · rw [h.keyed id rn hrn]
      exact GoMap.mem_of_lookup hrn
    · exact ((h.meshed.peers id rn hrn p).mp hp).2
  have hle := (hcluster.subperm hsub).length_le
  rw [RaftNode.cluster, length_cons] at hle
  rw [hall, RaftNode.getMajority]
  omega

/-- **Quorums.** Groups of `getMajority` members share a member, and counts that reach it are
majorities, exactly if the number of peers is even. In every run from a successful `Bootstrap` in
which no node of the map is stopped, a healthy cluster has `getMajority` running nodes, whichever
node is asked. -/
theorem quorums {config : List NodeConfig} {outcome : Nat → CreateOutcome} {cm : ClusterManager}
    (hdistinct : (config.map NodeConfig.nodeID).Nodup)
    (hboot : (newClusterManager config).bootstrap outcome = (cm, .ok)) {actions : List Action}
    (hactions : Lts.Along step Undisturbed (start cm) actions) :
    (∀ rn : RaftNode, rn.cluster.Nodup →
      (rn.QuorumsIntersect ∧ rn.CountsAreMajorities ↔ Even rn.peers.length)) ∧
    ∀ s ∈ Lts.trace step (start cm) actions, ∀ id rn, s.cm.nodes.lookup id = some rn →
      rn.cluster.Nodup → ∀ order, s.cm.isHealthy order = true →
        rn.getMajority ≤ s.runningCount := by
  constructor
  · intro rn hcluster
    rw [RaftNode.quorumsIntersect_iff hcluster]
    exact ⟨fun h => h.1, fun h => ⟨h, RaftNode.countsAreMajorities h⟩⟩
  · obtain ⟨hkeyed, hmeshed⟩ := ClusterManager.bootstrap_meshed hdistinct hboot
    have hstart : (start cm).AllRun :=
      ⟨hkeyed, hmeshed, fun id hid => mem_toFinset.mpr (AList.mem_keys.mp hid)⟩
    intro s hs id rn hrn hcluster _ _
    have hrun := hactions.forall_trace hstart (fun _ _ _ h hok hstep => h.step hok hstep) s hs
    exact hrun.getMajority_le hrn hcluster

/-- Three nodes. -/
def threeConfig : List NodeConfig := ClusterManager.pairConfig ++ [ClusterManager.thirdNode]

/-- The manager of `threeConfig` after `Bootstrap`. -/
def bootstrappedThree : ClusterManager :=
  ((newClusterManager threeConfig).bootstrap fun _ => ClusterManager.works).1

/-- The node `n1`, elected. -/
def leaderOfThree : RaftNode :=
  { ["n2", "n3"].foldl RaftNode.addPeer (newRaftNode "n1" .none) with state := .leader }

/-- The three nodes, when `n1` is elected. -/
def ledThree : RunningCluster :=
  ⟨{ bootstrappedThree with nodes := bootstrappedThree.nodes.insert "n1" leaderOfThree },
    bootstrappedThree.nodes.keys.toFinset⟩

theorem quorums_three : leaderOfThree.QuorumsIntersect ∧ leaderOfThree.CountsAreMajorities ∧
    ledThree.cm.isHealthy .asGiven = true ∧
      leaderOfThree.getMajority ≤ ledThree.runningCount := by
  have hboot : (newClusterManager threeConfig).bootstrap (fun _ => ClusterManager.works) =
      (bootstrappedThree, .ok) := rfl
  have hrun : Lts.exec step (start bootstrappedThree) [.call (.nodeRuns "n1" leaderOfThree)] =
      some ledThree := rfl
  have hactions : Lts.Along step Undisturbed (start bootstrappedThree)
      [.call (.nodeRuns "n1" leaderOfThree)] := by
    simp [Lts.Along, Undisturbed, ClusterManager.Listens]
  have hcluster : leaderOfThree.cluster.Nodup := by decide +kernel
  have hhealthy : ledThree.cm.isHealthy .asGiven = true := by decide +kernel
  obtain ⟨hquorums, hrunning⟩ := quorums (by decide) hboot hactions
  obtain ⟨hintersect, hcounts⟩ := (hquorums leaderOfThree hcluster).mpr (by decide +kernel)
  exact ⟨hintersect, hcounts, hhealthy,
    hrunning ledThree (Lts.exec_mem_trace hrun) "n1" leaderOfThree rfl hcluster .asGiven hhealthy⟩

/-- With one peer `getMajority` is 1, and each of the two alone is a group that has it. And three
nodes of which `n1` is elected, after `Stop`: no node runs and the cluster is healthy. -/
theorem quorums_counterexample : ¬(((newRaftNode "n1" .none).addPeer "n2").QuorumsIntersect) ∧
    (Lts.exec step (start bootstrappedThree)
        [.call (.nodeRuns "n1" leaderOfThree), .stop]).map
      (fun s => (s.cm.isHealthy .asGiven, s.runningCount)) = some (true, 0) ∧
    0 < leaderOfThree.getMajority := by
  refine ⟨?_, by decide +kernel, by decide +kernel⟩
  intro h
  have hshared := h ["n1"] ["n2"] (by decide +kernel) (by decide +kernel) (by decide +kernel)
    (by decide +kernel) (by decide +kernel) (by decide +kernel)
  exact absurd hshared (by decide +kernel)

end RunningCluster

end DistributedKV.Consensus
