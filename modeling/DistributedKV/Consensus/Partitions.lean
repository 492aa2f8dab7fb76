import DistributedKV.Consensus.ClusterManager

/-!
# Simulated network partitions (`safety.go`, `cluster.go`)

Every node has a `PartitionTolerance` of its own: a table of named partitions. It sends to a peer
when its table is empty or lists both in one partition (`CanCommunicate`).

`ClusterManager.SimulatePartition` and `HealPartition` change the table of one node, the first
that a loop over the node map comes to. `partition_iff` says what remains of the intended effect:
it is there exactly when there was nothing to separate and nothing to heal.
-/

namespace DistributedKV.Consensus

open List

/-! ## The table of one node -/

/-- `PartitionTolerance`: partition id -> node ids. -/
structure PartitionTolerance where
  partitions : GoMap String (List String)

/-- `NewPartitionTolerance`. -/
def newPartitionTolerance : PartitionTolerance := ⟨∅⟩

namespace PartitionTolerance

variable (pt : PartitionTolerance)

/-- The order of a loop over the partitions. -/
abbrev Order := IterationOrder ((_ : String) × List String)

/-- `CreatePartition`. -/
def createPartition (partitionID : String) (nodeIDs : List String) :
    PartitionTolerance :=
  ⟨pt.partitions.insert partitionID nodeIDs⟩

/-- `RemovePartition`. -/
def removePartition (partitionID : String) : PartitionTolerance :=
  ⟨pt.partitions.erase partitionID⟩

/-- `CanCommunicate`. -/
def canCommunicate (order : Order) (nodeID1 nodeID2 : String) : Bool :=
  if pt.partitions.len = 0 then true
  else (order.pick pt.partitions.entries).any fun entry =>
    entry.2.contains nodeID1 && entry.2.contains nodeID2

/-- `GetPartitionInfo`: a copy of the table. -/
def getPartitionInfo : GoMap String (List String) := pt.partitions

variable {pt : PartitionTolerance} {order : Order} {a b : String}

theorem canCommunicate_iff : pt.canCommunicate order a b = true ↔
      pt.partitions.entries = [] ∨ ∃ entry ∈ pt.partitions.entries, a ∈ entry.2 ∧ b ∈ entry.2 := by
  have hlen : pt.partitions.len = 0 ↔ pt.partitions.entries = [] := by
    rw [GoMap.len, AList.keys, List.keys, length_map, length_eq_zero_iff]
  unfold canCommunicate
  split
  · next hzero => exact iff_of_true rfl (.inl (hlen.mp hzero))
  next hzero =>
    have hne : pt.partitions.entries ≠ [] := fun h => hzero (hlen.mpr h)
    simp only [any_eq_true, IterationOrder.mem_pick, Bool.and_eq_true, contains_iff_mem,
      hne, false_or]

theorem canCommunicate_of_empty (h : pt.partitions.entries = []) :
    pt.canCommunicate order a b = true :=
  canCommunicate_iff.mpr (.inl h)

theorem canCommunicate_of_lookup (partitionID : String) {nodeIDs : List String}
    (h : pt.partitions.lookup partitionID = some nodeIDs) (ha : a ∈ nodeIDs) (hb : b ∈ nodeIDs) :
    pt.canCommunicate order a b = true :=
  canCommunicate_iff.mpr (.inr ⟨⟨partitionID, nodeIDs⟩, AList.mem_lookup_iff.mp h, ha, hb⟩)

/-- The loop of `HealPartition`: one `RemovePartition` for each partition of the copy. -/
def removeAll (pt : PartitionTolerance) (order : Order) : PartitionTolerance :=
  (order.pick pt.getPartitionInfo.entries).foldl (fun pt entry => pt.removePartition entry.1) pt

/-- What the removals of a list of partitions leave. -/
theorem mem_foldl_removePartition (entries : List ((_ : String) × List String))
    (pt : PartitionTolerance) (id : String) :
    id ∈ (entries.foldl (fun pt entry => pt.removePartition entry.1) pt).partitions ↔
      id ∈ pt.partitions ∧ ∀ entry ∈ entries, id ≠ entry.1 := by
  induction entries generalizing pt with
  | nil => simp
  | cons entry entries ih =>
    rw [foldl_cons, ih, removePartition, AList.mem_erase, forall_mem_cons, and_assoc, and_left_comm]

/-- After the loop the table is empty, whatever the order. -/
theorem entries_removeAll (pt : PartitionTolerance) (order : Order) :
    (pt.removeAll order).partitions.entries = [] := by
  refine eq_nil_iff_forall_not_mem.mpr fun entry hentry => ?_
  have hmem : entry.1 ∈ (pt.removeAll order).partitions := mem_map_of_mem (f := Sigma.fst) hentry
  obtain ⟨hold, hall⟩ := (mem_foldl_removePartition _ _ _).mp hmem
  obtain ⟨old, hin, heq⟩ := mem_map.mp hold
  exact hall old ((order.mem_pick _).mpr hin) heq.symm

end PartitionTolerance

/-! ## The manager -/

/-- A cluster with the partition table of each node, under the name the manager
knows the node by. -/
structure PartitionedCluster where
  manager : ClusterManager
  keyed : manager.Keyed
  partitionTolerance : String → PartitionTolerance

namespace PartitionedCluster

variable (pc : PartitionedCluster)

/-- The order of a loop over the nodes. -/
abbrev Order := IterationOrder ((_ : String) × RaftNode)

/-- The node whose table the loop over `cm.nodes` takes before it breaks off. -/
def firstNode (order : Order) : Option String :=
  (order.pick pc.manager.nodes.entries).head?.map Sigma.fst

/-- Change the table of one node. -/
def changeTable (id : String)
    (change : PartitionTolerance → PartitionTolerance) : PartitionedCluster :=
  { pc with
    partitionTolerance :=
      Function.update pc.partitionTolerance id (change (pc.partitionTolerance id)) }

/-- `ClusterManager.SimulatePartition`. -/
def simulatePartition (order : Order)
    (partition1 partition2 : List String) : PartitionedCluster × CallResult :=
  match pc.firstNode order with
  | none => (pc, .error "no partition tolerance manager available")
  | some id =>
    (pc.changeTable id fun pt =>
      (pt.createPartition "partition1" partition1).createPartition "partition2" partition2, .ok)

/-- `ClusterManager.HealPartition`; `removals` is the order of the loop over the copy
of the table. -/
def healPartition (order : Order)
    (removals : PartitionTolerance.Order) : PartitionedCluster × CallResult :=
  match pc.firstNode order with
  | none => (pc, .error "no partition tolerance manager available")
  | some id => (pc.changeTable id fun pt => pt.removeAll removals, .ok)

/-- The check of `sendAppendEntries`: the node asks its own table about its own name. -/
def maySend (order : PartitionTolerance.Order) (id peerID : String) :
    Bool :=
  match pc.manager.nodes.lookup id with
  | some node => (pc.partitionTolerance id).canCommunicate order node.id peerID
  | none => false

variable {pc : PartitionedCluster} {a b : String}

theorem maySend_eq (ha : a ∈ pc.manager.nodes) (order : PartitionTolerance.Order) :
    pc.maySend order a b = (pc.partitionTolerance a).canCommunicate order a b := by
  obtain ⟨node, hnode⟩ := GoMap.exists_lookup ha
  simp only [maySend, hnode]
  rw [pc.keyed a node hnode]

theorem maySend_changeTable_of_ne {id : String} (h : a ≠ id)
    (change : PartitionTolerance → PartitionTolerance) (order : PartitionTolerance.Order) :
    (pc.changeTable id change).maySend order a b = pc.maySend order a b := by
  simp only [maySend, changeTable, Function.update_of_ne h]

theorem maySend_changeTable_self (ha : a ∈ pc.manager.nodes)
    (change : PartitionTolerance → PartitionTolerance) (order : PartitionTolerance.Order) :
    (pc.changeTable a change).maySend order a b =
      (change (pc.partitionTolerance a)).canCommunicate order a b := by
  have htable : (pc.changeTable a change).partitionTolerance a =
      change (pc.partitionTolerance a) := Function.update_self ..
  rw [@maySend_eq (pc.changeTable a change) a b ha, htable]

theorem firstNode_mem {order : Order} {id : String} (h : pc.firstNode order = some id) :
    id ∈ pc.manager.nodes := by
  obtain ⟨entry, hentry, rfl⟩ := Option.map_eq_some_iff.mp h
  have hmem : entry ∈ pc.manager.nodes.entries := (order.mem_pick _).mp (mem_of_head? hentry)
  exact mem_map_of_mem hmem

@[simp] theorem manager_simulatePartition (order : Order) (partition1 partition2 : List String) :
    (pc.simulatePartition order partition1 partition2).1.manager = pc.manager := by
  unfold simulatePartition
  split <;> rfl

@[simp] theorem manager_healPartition (order : Order) (removals : PartitionTolerance.Order) :
    (pc.healPartition order removals).1.manager = pc.manager := by
  unfold healPartition
  split <;> rfl

/-! ### What the two calls do to the checks -/

section Calls

variable {order : Order} {checks removals : PartitionTolerance.Order}
  {partition1 partition2 : List String}

/-- A node whose table is not the one the loop takes checks as before. -/
theorem maySend_simulate_of_ne (ha : pc.firstNode order ≠ some a) :
    (pc.simulatePartition order partition1 partition2).1.maySend checks a b =
      pc.maySend checks a b := by
  unfold simulatePartition
  split
  · rfl
  · next id hfirst =>
    have hne : a ≠ id := by
      rintro rfl
      exact ha hfirst
    exact maySend_changeTable_of_ne hne _ _

theorem maySend_heal_of_ne (ha : pc.firstNode order ≠ some a) :
    (pc.healPartition order removals).1.maySend checks a b = pc.maySend checks a b := by
  unfold healPartition
  split
  · rfl
  · next id hfirst =>
    have hne : a ≠ id := by
      rintro rfl
      exact ha hfirst
    exact maySend_changeTable_of_ne hne _ _

open PartitionTolerance

/-- The node whose table the loop takes may send within each of the two sets. -/
theorem maySend_simulate_first (ha : pc.firstNode order = some a)
    (hab : (a ∈ partition1 ∧ b ∈ partition1) ∨ (a ∈ partition2 ∧ b ∈ partition2)) :
    (pc.simulatePartition order partition1 partition2).1.maySend checks a b = true := by
  simp only [simulatePartition, ha]
  rw [maySend_changeTable_self (firstNode_mem ha)]
  rcases hab with ⟨ha1, hb1⟩ | ⟨ha2, hb2⟩
  · refine canCommunicate_of_lookup "partition1" ?_ ha1 hb1
    show AList.lookup _ (AList.insert _ _ (AList.insert _ _ _)) = _
    rw [AList.lookup_insert_ne (by decide), AList.lookup_insert]
  · exact canCommunicate_of_lookup "partition2" (AList.lookup_insert _) ha2 hb2

end Calls

/-! ### The intended effect -/

/-- Two disjoint sets of node ids that cover the cluster. -/
structure Splits (pc : PartitionedCluster) (partition1 partition2 : List String) : Prop where
  covers : ∀ id, id ∈ pc.manager.nodes ↔ id ∈ partition1 ∨ id ∈ partition2
  disjoint : ∀ id ∈ partition1, id ∉ partition2

/-- No node may send to a node of the other set, and it may to every other node of
its own. -/
structure Separated (pc : PartitionedCluster) (partition1 partition2 : List String) : Prop where
  across : ∀ checks a b, (a ∈ partition1 ∧ b ∈ partition2) ∨ (a ∈ partition2 ∧ b ∈ partition1) →
    pc.maySend checks a b = false
  within : ∀ checks a b, a ≠ b →
    (a ∈ partition1 ∧ b ∈ partition1) ∨ (a ∈ partition2 ∧ b ∈ partition2) →
      pc.maySend checks a b = true

/-- The node may send to every other node. -/
def ReachesAll (pc : PartitionedCluster) (a : String) : Prop :=
  ∀ checks, ∀ b ∈ pc.manager.nodes, a ≠ b → pc.maySend checks a b = true

/-- Every node may send to every other. -/
def Connected (pc : PartitionedCluster) : Prop := ∀ a ∈ pc.manager.nodes, pc.ReachesAll a

variable {partition1 partition2 : List String}

theorem Splits.mem_left (h : pc.Splits partition1 partition2) (ha : a ∈ partition1) :
    a ∈ pc.manager.nodes :=
  (h.covers a).mpr (.inl ha)

theorem Splits.mem_right (h : pc.Splits partition1 partition2) (ha : a ∈ partition2) :
    a ∈ pc.manager.nodes :=
  (h.covers a).mpr (.inr ha)

theorem Splits.same (h : pc.Splits partition1 partition2)
    (hempty : partition1 = [] ∨ partition2 = []) (ha : a ∈ pc.manager.nodes)
    (hb : b ∈ pc.manager.nodes) :
    (a ∈ partition1 ∧ b ∈ partition1) ∨ (a ∈ partition2 ∧ b ∈ partition2) := by
  have ha' := (h.covers a).mp ha
  have hb' := (h.covers b).mp hb
  rcases hempty with rfl | rfl
  · exact .inr ⟨ha'.resolve_left not_mem_nil, hb'.resolve_left not_mem_nil⟩
  · exact .inl ⟨ha'.resolve_right not_mem_nil, hb'.resolve_right not_mem_nil⟩

/-- **Two nonempty sets are never separated and then joined again.** A node that is cut off
after the first call is connected after the second only if the second loop takes its table, and
that loop takes one table. -/
theorem not_both_of_nonempty {order order' : Order} {removals : PartitionTolerance.Order}
    (ha : a ∈ partition1) (hb : b ∈ partition2) (h : pc.Splits partition1 partition2)
    (hsep : (pc.simulatePartition order partition1 partition2).1.Separated partition1 partition2)
    (hcon : (((pc.simulatePartition order partition1 partition2).1.healPartition order'
      removals).1).Connected) : False := by
  set parted := (pc.simulatePartition order partition1 partition2).1 with hparted
  have hmanager : parted.manager = pc.manager := manager_simulatePartition ..
  have hab : a ≠ b := by
    rintro rfl
    exact h.disjoint a ha hb
  have hmem : ∀ {id}, id ∈ pc.manager.nodes →
      id ∈ (parted.healPartition order' removals).1.manager.nodes := by
    intro id hid
    rw [manager_healPartition, hmanager]
    exact hid
  -- a node that the second loop does not take is cut off before and connected after it
  have hstays : ∀ x y, (x ∈ partition1 ∧ y ∈ partition2) ∨ (x ∈ partition2 ∧ y ∈ partition1) →
      x ∈ pc.manager.nodes → y ∈ pc.manager.nodes → x ≠ y →
      parted.firstNode order' = some x := by
    intro x y hxy hx hy hne
    by_contra hfirst
    have hbefore := hsep.across .asGiven x y hxy
    have hafter := hcon x (hmem hx) .asGiven y (hmem hy) hne
    rw [maySend_heal_of_ne hfirst, hbefore] at hafter
    cases hafter
  have ha' := hstays a b (.inl ⟨ha, hb⟩) (h.mem_left ha) (h.mem_right hb) hab
  have hb' := hstays b a (.inr ⟨hb, ha⟩) (h.mem_right hb) (h.mem_left ha) hab.symm
  exact hab (Option.some.inj (ha'.symm.trans hb'))

/-- **What the simulation achieves.** For all tables, every two disjoint sets that cover the
cluster and all orders of the loops: `SimulatePartition` separates the sets and `HealPartition`
joins them again exactly when one is empty and every node but the one whose table the first loop
takes could send to every other already. -/
theorem partition_iff (pc : PartitionedCluster) (partition1 partition2 : List String)
    (hsplit : pc.Splits partition1 partition2) (order order' : Order)
    (removals : PartitionTolerance.Order) :
    ((pc.simulatePartition order partition1 partition2).1.Separated partition1 partition2 ∧
      ((pc.simulatePartition order partition1 partition2).1.healPartition order'
        removals).1.Connected) ↔ (partition1 = [] ∨ partition2 = []) ∧
      ∀ a ∈ pc.manager.nodes, pc.firstNode order ≠ some a → pc.ReachesAll a := by
  constructor
  · rintro ⟨hsep, hcon⟩
    have hempty : partition1 = [] ∨ partition2 = [] := by
      by_contra hboth
      obtain ⟨hne1, hne2⟩ := not_or.mp hboth
      obtain ⟨a, ha⟩ := exists_mem_of_ne_nil _ hne1
      obtain ⟨b, hb⟩ := exists_mem_of_ne_nil _ hne2
      exact not_both_of_nonempty ha hb hsplit hsep hcon
    refine ⟨hempty, fun a ha hfirst checks b hb hab => ?_⟩
    rw [← maySend_simulate_of_ne hfirst]
    exact hsep.within checks a b hab (hsplit.same hempty ha hb)
  rintro ⟨hempty, hreach⟩
  -- after the first call every node may send to every other
  have hall : ∀ checks, ∀ a ∈ pc.manager.nodes, ∀ b ∈ pc.manager.nodes, a ≠ b →
      (pc.simulatePartition order partition1 partition2).1.maySend checks a b = true := by
    intro checks a ha b hb hab
    by_cases hfirst : pc.firstNode order = some a
    · exact maySend_simulate_first hfirst (hsplit.same hempty ha hb)
    · rw [maySend_simulate_of_ne hfirst]
      exact hreach a ha hfirst checks b hb hab
  refine ⟨⟨?_, ?_⟩, ?_⟩
  · rintro checks a b (⟨ha, hb⟩ | ⟨ha, hb⟩) <;> rcases hempty with rfl | rfl
    · cases ha
    · cases hb
    · cases hb
    · cases ha
  · rintro checks a b hab (⟨ha, hb⟩ | ⟨ha, hb⟩)
    · exact hall checks a (hsplit.mem_left ha) b (hsplit.mem_left hb) hab
    · exact hall checks a (hsplit.mem_right ha) b (hsplit.mem_right hb) hab
  intro a ha checks b hb hab
  rw [manager_healPartition, manager_simulatePartition] at ha hb
  by_cases hfirst : (pc.simulatePartition order partition1 partition2).1.firstNode order' = some a
  · simp only [healPartition, hfirst]
    rw [maySend_changeTable_self (firstNode_mem hfirst)]
    exact PartitionTolerance.canCommunicate_of_empty (PartitionTolerance.entries_removeAll _ _)
  · rw [maySend_heal_of_ne hfirst]
    exact hall checks a ha b hb hab

/-- The two nodes of a bootstrapped pair, with new tables. -/
def pair : PartitionedCluster where
  manager := ClusterManager.bootstrappedPair
  keyed :=
    have hboot : (newClusterManager ClusterManager.pairConfig).bootstrap
        (fun _ => ClusterManager.works) = (ClusterManager.bootstrappedPair, .ok) := rfl
    (ClusterManager.bootstrap_meshed (by decide) hboot).1
  partitionTolerance := fun _ => newPartitionTolerance

theorem mem_pair {id : String} : id ∈ pair.manager.nodes ↔ id = "n1" ∨ id = "n2" := by
  have hkeys : pair.manager.nodes.keys = ["n2", "n1"] := by decide
  rw [AList.mem_keys, hkeys]
  simp [or_comm]

theorem reachesAll_pair (ha : a ∈ pair.manager.nodes) : pair.ReachesAll a := by
  intro checks b _ _
  rw [maySend_eq ha]
  exact PartitionTolerance.canCommunicate_of_empty rfl

/-- All nodes on one side: nothing is separated, and everyone may send to everyone. -/
theorem partition_one_side :
    (pair.simulatePartition .asGiven ["n1", "n2"] []).1.Separated ["n1", "n2"] [] ∧
      ((pair.simulatePartition .asGiven ["n1", "n2"] []).1.healPartition .asGiven
        .asGiven).1.Connected :=
  (partition_iff pair ["n1", "n2"] [] ⟨fun id => by simp [mem_pair], fun _ _ => not_mem_nil⟩
    .asGiven .asGiven .asGiven).mpr ⟨.inr rfl, fun _ ha _ => reachesAll_pair ha⟩

/-- The loop takes the table of one of two separated nodes, and the other goes on sending. -/
theorem partition_pair_counterexample : pair.Splits ["n1"] ["n2"] ∧
      (pair.simulatePartition .asGiven ["n1"] ["n2"]).2 = .ok ∧
      (pair.simulatePartition .asGiven ["n1"] ["n2"]).1.maySend .asGiven "n1" "n2" = true ∧
      ¬(pair.simulatePartition .asGiven ["n1"] ["n2"]).1.Separated ["n1"] ["n2"] := by
  have hsends : (pair.simulatePartition .asGiven ["n1"] ["n2"]).1.maySend .asGiven "n1" "n2" =
      true := by decide
  refine ⟨⟨fun id => by simp [mem_pair], by decide⟩, by decide, hsends, fun hsep => ?_⟩
  have hcut := hsep.across .asGiven "n1" "n2" (.inl ⟨mem_singleton.mpr rfl, mem_singleton.mpr rfl⟩)
  rw [hsends] at hcut
  cases hcut

end PartitionedCluster

end DistributedKV.Consensus
