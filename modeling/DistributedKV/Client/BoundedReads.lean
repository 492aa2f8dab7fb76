import DistributedKV.Client.LoadBalancer
import DistributedKV.Client.ReadYourWrites

/-!
# Reads with bounded staleness (`advanced_client.go`, `load_balancer.go`)

A read with consistency `bounded` is meant to be served by a replica that was seen recently,
or else by the leader. `SelectRecentNodes` falls back to any healthy node if none is recent, and
`executeBoundedRead` to a linearizable read of the first node it was given, which it takes for the
leader. Nobody asks who the leader is.

`LastSeen` of the nodes is given by node id and does not change during the read.
-/

namespace DistributedKV.Client

open List

/-- What the load balancer knows of a node, as the reads see it. -/
def NodeInfo.replica (lastSeen : String → Int) (node : NodeInfo) : ReplicaNode :=
  ⟨node.id, lastSeen node.id⟩

namespace LoadBalancer

/-- A healthy node that was seen within the threshold. -/
def IsRecent (lb : LoadBalancer) (lastSeen : String → Int) (staleThreshold : Int64) (now : Int)
    (node : NodeInfo) : Prop :=
  node ∈ lb.getHealthyNodes .asGiven ∧ Time.sub now (lastSeen node.id) ≤ staleThreshold

/-- `SelectRecentNodes`; an answer of `none` is a panic. -/
def selectRecentNodes (hash : String → UInt64) (lb : LoadBalancer) (lastSeen : String → Int)
    (choices : Choices) (key : String) (count : Int) (staleThreshold : Int64) (now : Int) :
    LoadBalancer × Option (Except String (List NodeInfo)) :=
  let recentNodes := ((choices.order.pick lb.nodes.entries).map Sigma.snd).filter fun node =>
    node.isHealthy && decide (Time.sub now (lastSeen node.id) ≤ staleThreshold)
  if recentNodes.length = 0 then lb.selectNodes hash choices key count
  else
    let count : Int := if count > recentNodes.length then recentNodes.length else count
    if count < 0 then (lb, none)
    else (lb, some (.ok ((choices.shuffle.pick recentNodes).take count.toNat)))

end LoadBalancer

namespace ConsistencyManager

/-- A read with consistency `bounded`: the nodes are selected at time `now` and read at time
`later`. -/
def boundedRead (hash : String → UInt64) (cm : ConsistencyManager) (lb : LoadBalancer)
    (lastSeen : String → Int) (discovery : Discovery) (choices : Choices) (key : String)
    (now later : Int) (answers : Answers) : Option (Except String ReplicaNode) :=
  (lb.selectRecentNodes hash lastSeen choices key 1 cm.config.staleReadThreshold now).2.map
    fun selected =>
      let discovery := { discovery with
        selectRecentNodes := selected.map fun nodes => nodes.head?.map (NodeInfo.replica lastSeen) }
      match cm.selectNodesForRead key .bounded discovery now with
      | .ok nodes => cm.executeRead key .bounded nodes answers later
      | .error err => .error err

section BoundedReads

variable {hash : String → UInt64} {cm : ConsistencyManager} {lb : LoadBalancer}
  {lastSeen : String → Int} {discovery : Discovery} {choices : Choices} {key : String}
  {now later : Int} {answers : Answers} {node : ReplicaNode}

theorem mem_of_boundedLoop {staleThreshold : Int64} {nodes : List ReplicaNode}
    (h : boundedLoop staleThreshold now answers nodes = some node) : node ∈ nodes := by
  induction nodes with
  | nil => cases h
  | cons first rest ih =>
    rw [boundedLoop] at h
    split at h
    · split at h
      · split at h
        · exact Option.some.inj h ▸ mem_cons_self
        · exact mem_cons_of_mem _ (ih h)
      · exact mem_cons_of_mem _ (ih h)
    · exact mem_cons_of_mem _ (ih h)

/-- With at most one node to ask, both ways of a bounded read ask that node. -/
theorem eq_of_executeBoundedRead {nodes : List ReplicaNode} (hone : nodes.length ≤ 1)
    (h : cm.executeBoundedRead nodes answers later = .ok node) : nodes = [node] := by
  match nodes, hone with
  | [], _ => cases h
  | [only], _ =>
    rw [executeBoundedRead] at h
    · split at h
      · next served hserved =>
        cases h
        rw [mem_singleton.mp (mem_of_boundedLoop hserved)]
      · exact ((readFirst_eq_ok_iff (by simp)).mp h).1
    · simp

/-- Whoever serves the read is the first node that was selected. -/
theorem selected_of_boundedRead
    (h : cm.boundedRead hash lb lastSeen discovery choices key now later answers =
      some (.ok node)) : ∃ selected first,
      (lb.selectRecentNodes hash lastSeen choices key 1 cm.config.staleReadThreshold now).2 =
        some (.ok selected) ∧ selected.head? = some first ∧ node = first.replica lastSeen := by
  obtain ⟨result, hresult, h⟩ := Option.map_eq_some_iff.mp h
  cases result with
  | error err => cases h
  | ok selected =>
    have honly := eq_of_executeBoundedRead (by cases selected.head? <;> simp) h
    obtain ⟨first, hfirst, heq⟩ : ∃ first, selected.head? = some first ∧
        first.replica lastSeen = node := by
      cases hhead : selected.head? with
      | none => simp [hhead] at honly
      | some first => exact ⟨first, rfl, by simpa [hhead] using honly⟩
    exact ⟨selected, first, hresult, hfirst, heq.symm⟩

end BoundedReads

/-- **Who serves a bounded read.** -/
theorem bounded_read_iff (hash : String → UInt64) (cm : ConsistencyManager) (lb : LoadBalancer)
    (lastSeen : String → Int) (discovery : Discovery) (choices : Choices) (key : String)
    (now later : Int) (answers : Answers) (node : ReplicaNode)
    (hread : cm.boundedRead hash lb lastSeen discovery choices key now later answers =
      some (.ok node)) : ((∃ info, lb.IsRecent lastSeen cm.config.staleReadThreshold now info ∧
          node = info.replica lastSeen) ∨ discovery.leader = .ok node) ↔
      (∃ info, lb.IsRecent lastSeen cm.config.staleReadThreshold now info) ∨
        ∃ selected first, (lb.selectNodes hash choices key 1).2 = some (.ok selected) ∧
          selected.head? = some first ∧ discovery.leader = .ok (first.replica lastSeen) := by
  obtain ⟨selected, first, hselect, hfirst, rfl⟩ := selected_of_boundedRead hread
  have hmem : ∀ info, info ∈ ((choices.order.pick lb.nodes.entries).map Sigma.snd).filter
      (fun node => node.isHealthy &&
        decide (Time.sub now (lastSeen node.id) ≤ cm.config.staleReadThreshold)) ↔
      lb.IsRecent lastSeen cm.config.staleReadThreshold now info := by
    intro info
    simp [LoadBalancer.IsRecent, LoadBalancer.getHealthyNodes, IterationOrder.asGiven, and_assoc]
  rw [LoadBalancer.selectRecentNodes] at hselect
  split at hselect
  · next hnone =>
    -- nobody is recent, so the leader is the only hope
    have hstale : ¬∃ info, lb.IsRecent lastSeen cm.config.staleReadThreshold now info := by
      rintro ⟨info, hinfo⟩
      exact ne_nil_of_mem ((hmem info).mpr hinfo) (eq_nil_of_length_eq_zero hnone)
    constructor
    · rintro (⟨info, hinfo, -⟩ | hleader)
      · exact absurd ⟨info, hinfo⟩ hstale
      · exact Or.inr ⟨selected, first, hselect, hfirst, hleader⟩
    rintro (hrecent | ⟨selected', first', hselect', hfirst', hleader⟩)
    · exact absurd hrecent hstale
    obtain rfl : selected = selected' := by simpa using hselect.symm.trans hselect'
    obtain rfl : first = first' := by simpa using hfirst.symm.trans hfirst'
    exact Or.inr hleader
  · have hrecent : lb.IsRecent lastSeen cm.config.staleReadThreshold now first := by
      dsimp only at hselect
      rw [if_neg (by split <;> omega)] at hselect
      obtain rfl := Except.ok.inj (Option.some.inj hselect)
      exact (hmem first).mp
        ((choices.shuffle.mem_pick _).mp (mem_of_mem_take (mem_of_head? hfirst)))
    exact iff_of_true (Or.inl ⟨first, hrecent, rfl⟩) (Or.inl ⟨first, hrecent⟩)

/-- Two healthy nodes under round robin, both last seen at time 0. -/
def idleNodes : LoadBalancer :=
  balancerAfter (fun _ => 0) .roundRobin [
    .addNode ⟨"leader", true, 1, 0⟩ .asGiven, .addNode ⟨"replica", true, 1, 0⟩ .asGiven]

/-- A threshold of ten, and the node `leader` as leader. -/
def readIdle (now : Int) : Option (Except String ReplicaNode) :=
  boundedRead (fun _ => 0) ⟨⟨false, 10⟩, ∅⟩ idleNodes (fun _ => 0)
    ⟨.ok ⟨"leader", 0⟩, .ok none, .ok none⟩ ⟨.asGiven, .asGiven, fun _ => 0⟩ "k" now now
    fun _ => .ok ⟨now, now⟩

theorem bounded_at_five : readIdle 5 = some (.ok ⟨"replica", 0⟩) ∧
      ((∃ info, idleNodes.IsRecent (fun _ => 0) 10 5 info ∧
        (⟨"replica", 0⟩ : ReplicaNode) = info.replica fun _ => 0) ∨
          (.ok ⟨"leader", 0⟩ : Except String ReplicaNode) = .ok ⟨"replica", 0⟩) :=
  ⟨rfl, (bounded_read_iff (fun _ => 0) ⟨⟨false, 10⟩, ∅⟩ idleNodes (fun _ => 0)
    ⟨.ok ⟨"leader", 0⟩, .ok none, .ok none⟩ ⟨.asGiven, .asGiven, fun _ => 0⟩ "k" 5 5
    (fun _ => .ok ⟨5, 5⟩) ⟨"replica", 0⟩ rfl).mpr
      (Or.inl ⟨⟨"replica", true, 1, 0⟩, by decide, by decide⟩)⟩

/-- At time 3600 the read is served by a node that is neither recent nor the leader. -/
theorem not_bounded_later : readIdle 3600 = some (.ok ⟨"replica", 0⟩) ∧
      ¬((∃ info, idleNodes.IsRecent (fun _ => 0) 10 3600 info ∧
        (⟨"replica", 0⟩ : ReplicaNode) = info.replica fun _ => 0) ∨
          (.ok ⟨"leader", 0⟩ : Except String ReplicaNode) = .ok ⟨"replica", 0⟩) := by
  refine ⟨rfl, ?_⟩
  rintro (⟨info, ⟨-, hrecent⟩, -⟩ | hleader)
  · have hrecent : Time.sub 3600 0 ≤ (10 : Int64) := hrecent
    exact absurd hrecent (by decide)
  · exact absurd hleader (by decide)

end ConsistencyManager

end DistributedKV.Client
