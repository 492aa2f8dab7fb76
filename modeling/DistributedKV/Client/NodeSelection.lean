import Mathlib.Data.List.Rotate
import DistributedKV.Client.LoadBalancer

/-!
# What `SelectNodes` returns

A call that asks for `count` nodes is meant to get that many different healthy nodes, or all of
them if there are fewer, and round robin is meant to take the nodes in turn.

Round robin goes round again if asked for more nodes than there are, and its index counts in a
list that every call builds anew from the node map, in any order. The weighted policy draws with
replacement, and panics if the weights sum to a negative number.
-/

namespace DistributedKV.Client

open Partitioning List

namespace LoadBalancer

/-- The healthy nodes, as the node map lists them. -/
def healthyNodes (lb : LoadBalancer) : List NodeInfo := lb.getHealthyNodes .asGiven

/-- How many nodes a call asks for. -/
def wanted (count : Int) : Nat := (max count 1).toNat

/-- `n` different nodes of a list, or as many as it has. -/
def Takes (nodes : List NodeInfo) (n : Nat) (selected : List NodeInfo) : Prop :=
  selected.length = min n nodes.length ∧ (selected.map NodeInfo.id).Nodup ∧
    ∀ node ∈ selected, node ∈ nodes

/-- The call returns as many different healthy nodes as it asks for, or all there are. -/
def Selects (hash : String → UInt64) (lb : LoadBalancer) (choices : Choices) (key : String)
    (count : Int) : Prop :=
  ∃ selected, (lb.selectNodes hash choices key count).2 = some (.ok selected) ∧
    Takes lb.healthyNodes (wanted count) selected

/-- When a call selects as it should, whatever the draws and the orders. -/
def Selectable (lb : LoadBalancer) (count : Int) : Prop :=
  match lb.policy with
  | .roundRobin | .other => wanted count ≤ lb.healthyNodes.length
  | .weighted =>
    totalWeight lb.healthyNodes = 0 ∨
      0 < totalWeight lb.healthyNodes ∧ (wanted count = 1 ∨ lb.healthyNodes.length = 1)
  | .random | .leastConn | .consistent => True

section Selection

variable {hash : String → UInt64} {lb : LoadBalancer} {choices : Choices} {key : String}
  {count : Int} {nodes nodes' selected : List NodeInfo} {node : NodeInfo} {n : Nat}

/-! ## The healthy nodes -/

theorem getHealthyNodes_perm (lb : LoadBalancer)
    (order : IterationOrder ((_ : String) × NodeInfo)) :
    (lb.getHealthyNodes order).Perm lb.healthyNodes := by
  exact ((order.perm lb.nodes.entries).map Sigma.snd).filter NodeInfo.isHealthy

theorem mem_healthyNodes (hfresh : Fresh hash lb) :
    node ∈ lb.healthyNodes ↔ lb.nodes.lookup node.id = some node ∧ node.isHealthy = true := by
  rw [healthyNodes, getHealthyNodes, mem_filter, mem_map]
  refine and_congr_left fun _ => ⟨?_, fun hlook => ?_⟩
  · rintro ⟨⟨id, stored⟩, hentry, rfl⟩
    have hlook : lb.nodes.lookup id = some stored := AList.mem_lookup_iff.mpr hentry
    rwa [hfresh.keyed id stored hlook]
  · exact ⟨⟨node.id, node⟩, AList.mem_lookup_iff.mp hlook, rfl⟩

/-- Different healthy nodes have different ids. -/
theorem nodup_ids_healthyNodes (hfresh : Fresh hash lb) :
    (lb.healthyNodes.map NodeInfo.id).Nodup := by
  have hkeys : (lb.nodes.entries.map Sigma.snd).map NodeInfo.id = lb.nodes.keys := by
    rw [map_map]
    exact map_congr_left fun e he => hfresh.keyed e.1 e.2 (AList.mem_lookup_iff.mpr he)
  exact (hkeys ▸ lb.nodes.keys_nodup).sublist (filter_sublist.map _)

theorem takes_take (hperm : nodes'.Perm nodes) (hnodup : (nodes.map NodeInfo.id).Nodup) :
    Takes nodes n (nodes'.take n) := by
  refine ⟨?_, ?_, fun node hmem => ?_⟩
  · rw [length_take, hperm.length_eq]
  · exact ((hperm.map _).nodup_iff.mpr hnodup).sublist ((take_sublist _ _).map _)
  · exact hperm.mem_iff.mp (mem_of_mem_take hmem)

/-! ## Round robin, random and least connections -/

theorem filterMap_range_getElem? {α : Type*} (l : List α) (n : Nat) :
    ((List.range n).filterMap fun i => l[i]?) = l.take n := by
  induction n with
  | zero => rfl
  | succ n ih =>
    rw [range_succ, filterMap_append, ih, take_add_one]
    cases h : l[n]? <;> simp [h]

/-- Within one round, round robin reads the list from its index on. -/
theorem selectRoundRobin_eq (hle : n ≤ nodes.length) :
    (lb.selectRoundRobin nodes n).2 = (nodes.rotate lb.roundRobinIdx).take n := by
  rw [selectRoundRobin]
  split
  · next hnone => simp [eq_nil_of_length_eq_zero hnone]
  rw [← filterMap_range_getElem?]
  refine filterMap_congr fun i hi => ?_
  rw [getElem?_rotate ((mem_range.mp hi).trans_le hle), Nat.add_comm]

theorem length_selectRoundRobin (hne : nodes.length ≠ 0) (n : Nat) :
    (lb.selectRoundRobin nodes n).2.length = n := by
  rw [selectRoundRobin, if_neg hne, length_filterMap_eq_countP]
  refine (countP_eq_length.mpr fun i _ => ?_).trans length_range
  rw [getElem?_eq_getElem (Nat.mod_lt _ (Nat.pos_of_ne_zero hne))]
  rfl

theorem takes_selectRandom (shuffle : IterationOrder NodeInfo) (hperm : nodes'.Perm nodes)
    (hnodup : (nodes.map NodeInfo.id).Nodup) : Takes nodes n (selectRandom shuffle nodes' n) := by
  rw [selectRandom]
  split
  · next hnone =>
    obtain rfl := eq_nil_of_length_eq_zero hnone
    exact take_nil (i := n) ▸ takes_take hperm hnodup
  split
  · next hall =>
    rw [← take_of_length_le hall]
    exact takes_take hperm hnodup
  · exact takes_take ((shuffle.perm nodes').trans hperm) hnodup

/-! ## Weights -/

theorem mem_of_pickWeighted {target currentWeight : Int64}
    (h : pickWeighted target currentWeight nodes = some node) : node ∈ nodes := by
  induction nodes generalizing currentWeight with
  | nil => cases h
  | cons first rest ih =>
    rw [pickWeighted] at h
    split at h
    · exact Option.some.inj h ▸ mem_cons_self
    · exact mem_cons_of_mem _ (ih h)

/-- A target below the total is passed at some node, also if weights are negative on the way. -/
theorem exists_pickWeighted {target currentWeight : Int64} (hne : nodes.length ≠ 0)
    (hlt : target < nodes.foldl (fun total node => total + node.weight) currentWeight) :
    ∃ node, pickWeighted target currentWeight nodes = some node := by
  induction nodes generalizing currentWeight with
  | nil => exact absurd rfl hne
  | cons first rest ih =>
    rw [pickWeighted]
    split
    · exact ⟨first, rfl⟩
    next hnot =>
      refine ih (fun hlast => hnot ?_) hlt
      rw [eq_nil_of_length_eq_zero hlast] at hlt
      exact hlt

theorem totalWeight_perm (h : nodes.Perm nodes') : totalWeight nodes = totalWeight nodes' := by
  have hcomm : RightCommutative fun (total : Int64) (node : NodeInfo) => total + node.weight := by
    refine ⟨fun total a b => ?_⟩
    rw [Int64.add_assoc, Int64.add_comm a.weight, ← Int64.add_assoc]
  exact h.foldl_eq 0

/-- `rand.Intn` stays below its bound. -/
theorem intn_lt {total : Int64} (hpos : 0 < total) (draw : Nat) :
    Int64.ofNat (draw % total.toNatClampNeg) < total := by
  have htotal : (0 : Int) < total.toInt := Int64.lt_iff_toInt_lt.mp hpos
  have hclamp : total.toNatClampNeg = total.toInt.toNat := rfl
  have hmax : total.toInt < 2 ^ 63 := total.toInt_lt
  have hlt : draw % total.toNatClampNeg < total.toNatClampNeg := Nat.mod_lt _ (by omega)
  rw [Int64.lt_iff_toInt_lt, Int64.toInt_ofNat_of_lt (by omega)]
  omega

/-- With a positive total, draws that are all the same number pick the same node. -/
theorem selectWeighted_of_pos (choices : Choices) (hne : nodes.length ≠ 0)
    (hpos : 0 < totalWeight nodes)
    (hsame : ∀ i < min n nodes.length, choices.intn i = choices.intn 0) : ∃ node ∈ nodes,
      selectWeighted choices nodes n = some (List.replicate (min n nodes.length) node) := by
  obtain ⟨node, hnode⟩ := exists_pickWeighted hne (intn_lt hpos (choices.intn 0))
  have hzero : totalWeight nodes ≠ 0 := fun h => by
    rw [h] at hpos
    exact absurd hpos (by decide)
  have hneg : ¬ totalWeight nodes < 0 := fun h => by
    rw [Int64.lt_iff_toInt_lt] at h hpos
    omega
  refine ⟨node, mem_of_pickWeighted hnode, ?_⟩
  rw [selectWeighted, if_neg hne, if_neg hzero, if_neg hneg]
  refine congrArg some ?_
  have hdraws : ∀ i ∈ List.range (min n nodes.length),
      pickWeighted (Int64.ofNat (choices.intn i % (totalWeight nodes).toNatClampNeg)) 0 nodes =
        some node := by
    intro i hi
    rw [hsame i (mem_range.mp hi), hnode]
  rw [filterMap_congr hdraws]
  show List.filterMap (some ∘ fun _ => node) _ = _
  rw [filterMap_eq_map, map_const', length_range]

/-! ## Consistent hashing -/

/-- The walk only adds healthy nodes that are in the map. -/
theorem mem_of_mem_walkRing (hfresh : Fresh hash lb) {idx left : Nat} {seen : List String}
    (hstart : ∀ node ∈ selected, node ∈ lb.healthyNodes) :
    ∀ node ∈ lb.walkRing idx n left selected seen, node ∈ lb.healthyNodes := by
  induction left generalizing selected seen with
  | zero => exact hstart
  | succ left ih =>
    rw [walkRing]
    split
    · dsimp only
      split
      · exact ih hstart
      split
      · next stored hlook =>
        split
        · next hhealthy =>
          refine ih fun node hmem => ?_
          rcases mem_append.mp hmem with hold | hnew
          · exact hstart node hold
          · rw [mem_singleton.mp hnew, mem_healthyNodes hfresh, hfresh.keyed _ _ hlook]
            exact ⟨hlook, hhealthy⟩
        · exact ih hstart
      · exact ih hstart
    · exact hstart

section

variable (hfresh : Fresh hash lb) (hpolicy : lb.policy = .consistent)
include hfresh hpolicy

/-- The ring has a point of every node, unless it is empty. -/
theorem mem_hashRing
    (hring : lb.hashRing.length ≠ 0) {id : String} (hid : id ∈ lb.nodes) :
    ∃ point ∈ lb.hashRing, point.nodeID = id := by
  obtain ⟨ids, -, hmem, heq⟩ := hfresh.ring hpolicy
  have hpoint : ∀ point, point ∈ lb.hashRing ↔
      ∃ id ∈ ids, point ∈ hashPoints hash lb.virtualNodes id := by
    intro point
    rw [heq, (perm_insertionSort _ _).mem_iff, mem_flatMap]
  obtain ⟨some, hsome⟩ := exists_mem_of_length_pos (Nat.pos_of_ne_zero hring)
  obtain ⟨other, -, hother⟩ := (hpoint some).mp hsome
  have hlen : ∀ id, (hashPoints hash lb.virtualNodes id).length = lb.virtualNodes := by
    intro id
    simp [hashPoints, virtualHashes]
  have hpos : 0 < (hashPoints hash lb.virtualNodes id).length := by
    rw [hlen, ← hlen other]
    exact length_pos_of_mem hother
  obtain ⟨point, hp⟩ := exists_mem_of_length_pos hpos
  exact ⟨point, (hpoint point).mpr ⟨id, (hmem id).mpr hid, hp⟩, (mem_hashPoints.mp hp).1⟩

/-- A whole round of the ring sees every healthy node. -/
theorem takes_walkRing (hring : lb.hashRing.length ≠ 0) (idx : Nat) :
    Takes lb.healthyNodes n (lb.walkRing idx n lb.hashRing.length [] []) := by
  -- the owners of the points, from the index on
  let owners := (lb.hashRing.rotate idx).map HashPoint.nodeID
  have hlen : owners.length = lb.hashRing.length := by simp [owners]
  have hread : ∀ i (hi : i < owners.length),
      (lb.hashRing.getD ((idx + i) % lb.hashRing.length) ⟨0, ""⟩).nodeID = owners[i] := by
    intro i hi
    have hlt : (idx + i) % lb.hashRing.length < lb.hashRing.length :=
      Nat.mod_lt _ (Nat.pos_of_ne_zero hring)
    simp [owners, getElem_rotate, getD_eq_getElem?_getD, hlt, Nat.add_comm]
  have hhealthy : (distinctFrom [] (owners.filter lb.isHealthy)).Perm
      (lb.healthyNodes.map NodeInfo.id) := by
    refine (perm_ext_iff_of_nodup nodup_distinctFrom (nodup_ids_healthyNodes hfresh)).mpr
      fun id => ?_
    rw [mem_distinctFrom, mem_filter, isHealthy, Option.any_eq_true]
    refine Iff.trans ⟨?_, ?_⟩ mem_map.symm
    · rintro ⟨⟨-, node, hlook, hnode⟩, -⟩
      obtain rfl := hfresh.keyed id node hlook
      exact ⟨node, (mem_healthyNodes hfresh).mpr ⟨hlook, hnode⟩, rfl⟩
    rintro ⟨node, hmem, rfl⟩
    obtain ⟨hlook, hnode⟩ := (mem_healthyNodes hfresh).mp hmem
    obtain ⟨point, hpoint, hid⟩ := mem_hashRing hfresh hpolicy hring
      (AList.lookup_isSome.mp (Option.isSome_of_eq_some hlook))
    refine ⟨⟨mem_map.mpr ⟨point, mem_rotate.mpr hpoint, hid⟩, node, hlook, hnode⟩, ?_⟩
    exact not_mem_nil
  have hwalk : (lb.walkRing idx n lb.hashRing.length [] []).map NodeInfo.id = _ :=
    walkRing_eq hfresh.keyed hlen hread hlen.ge
  rw [hlen, Nat.sub_self, drop_zero, length_nil, Nat.sub_zero, map_nil, nil_append] at hwalk
  refine ⟨?_, ?_, mem_of_mem_walkRing hfresh (by simp)⟩
  · rw [← length_map NodeInfo.id, hwalk, length_take, hhealthy.length_eq, length_map]
  · rw [hwalk]
    exact nodup_distinctFrom.sublist (take_sublist _ _)

theorem takes_selectConsistentHash (hnodes : nodes.Perm lb.healthyNodes) :
    Takes lb.healthyNodes n (lb.selectConsistentHash hash choices key nodes n) := by
  rw [selectConsistentHash]
  split
  · exact takes_selectRandom choices.shuffle hnodes (nodup_ids_healthyNodes hfresh)
  · next hring => exact takes_walkRing hfresh hpolicy hring _

/-! ## `SelectNodes` -/

end

theorem wanted_eq (count : Int) : (if count ≤ 0 then 1 else count.toNat) = wanted count := by
  rw [wanted]
  split <;> omega

theorem length_getHealthyNodes (lb : LoadBalancer)
    (order : IterationOrder ((_ : String) × NodeInfo)) :
    (lb.getHealthyNodes order).length = lb.healthyNodes.length :=
  (lb.getHealthyNodes_perm order).length_eq

theorem takes_selectRoundRobin_iff (hfresh : Fresh hash lb) (hsome : lb.healthyNodes.length ≠ 0)
    (order : IterationOrder ((_ : String) × NodeInfo)) :
    Takes lb.healthyNodes n (lb.selectRoundRobin (lb.getHealthyNodes order) n).2 ↔
      n ≤ lb.healthyNodes.length := by
  have hlen := lb.length_getHealthyNodes order
  constructor
  · rintro ⟨hcount, -⟩
    rw [length_selectRoundRobin (hlen ▸ hsome)] at hcount
    omega
  intro hle
  rw [selectRoundRobin_eq (hlen ▸ hle)]
  exact takes_take ((rotate_perm _ _).trans (lb.getHealthyNodes_perm order))
    (nodup_ids_healthyNodes hfresh)

theorem takes_replicate_iff (hmem : node ∈ nodes) :
    Takes nodes n (List.replicate (min n nodes.length) node) ↔ min n nodes.length ≤ 1 := by
  rw [Takes, length_replicate, map_replicate, nodup_replicate]
  refine ⟨fun h => h.2.1, fun h => ⟨rfl, h, fun other hother => ?_⟩⟩
  rwa [eq_of_mem_replicate hother]

theorem takes_selectWeighted_iff (hfresh : Fresh hash lb) (hsome : lb.healthyNodes.length ≠ 0)
    (hn : n ≠ 0) : (∀ choices, ∃ selected,
      selectWeighted choices (lb.getHealthyNodes choices.order) n = some selected ∧
        Takes lb.healthyNodes n selected) ↔ totalWeight lb.healthyNodes = 0 ∨
        0 < totalWeight lb.healthyNodes ∧ (n = 1 ∨ lb.healthyNodes.length = 1) := by
  have htotal := fun order => totalWeight_perm (lb.getHealthyNodes_perm order)
  have hlen := lb.length_getHealthyNodes
  have hne := fun order => hlen order ▸ hsome
  constructor
  · intro hall
    -- the same draw each time
    obtain ⟨selected, heq, htakes⟩ := hall ⟨.asGiven, .asGiven, fun _ => 0⟩
    by_cases hzero : totalWeight lb.healthyNodes = 0
    · exact Or.inl hzero
    by_cases hneg : totalWeight lb.healthyNodes < 0
    · rw [selectWeighted, if_neg (hne _), if_neg (htotal _ ▸ hzero), if_pos (htotal _ ▸ hneg),
        if_neg hn] at heq
      cases heq
    have hpos : 0 < totalWeight lb.healthyNodes := by
      rw [← Int64.toInt_inj] at hzero
      rw [Int64.lt_iff_toInt_lt] at hneg ⊢
      exact lt_of_le_of_ne (not_lt.mp hneg) (Ne.symm hzero)
    obtain ⟨node, hmem, hsame⟩ := selectWeighted_of_pos (n := n)
      ⟨.asGiven, .asGiven, fun _ => 0⟩ hsome hpos fun _ _ => rfl
    obtain rfl : _ = selected := Option.some.inj (hsame.symm.trans heq)
    have := (takes_replicate_iff hmem).mp htakes
    exact Or.inr ⟨hpos, by omega⟩
  · rintro (hzero | ⟨hpos, hone⟩) choices
    · refine ⟨_, ?_, takes_selectRandom choices.shuffle (lb.getHealthyNodes_perm choices.order)
        (nodup_ids_healthyNodes hfresh)⟩
      rw [selectWeighted, if_neg (hne _), if_pos (htotal _ ▸ hzero)]
    have hle : min n lb.healthyNodes.length ≤ 1 := by omega
    obtain ⟨node, hmem, heq⟩ := selectWeighted_of_pos (n := n) choices
      (hne choices.order) (htotal _ ▸ hpos) fun i hi => by
        rw [hlen] at hi
        rw [show i = 0 by omega]
    rw [hlen] at heq
    exact ⟨_, heq, (takes_replicate_iff ((lb.getHealthyNodes_perm _).mem_iff.mp hmem)).mpr hle⟩

/-- **What a call selects**, for a balancer in any state it can be brought into. -/
theorem selects_iff (hash : String → UInt64) (policy : LoadBalancingPolicy)
    (calls : List BalancerCall) (key : String) (count : Int)
    (hsome : (balancerAfter hash policy calls).healthyNodes ≠ []) :
    (∀ choices, Selects hash (balancerAfter hash policy calls) choices key count) ↔
      Selectable (balancerAfter hash policy calls) count := by
  have hfresh := (fresh_balancerAfter hash policy calls).1
  generalize balancerAfter hash policy calls = lb at hsome hfresh ⊢
  have hsome : lb.healthyNodes.length ≠ 0 := mt eq_nil_of_length_eq_zero hsome
  have hids := nodup_ids_healthyNodes hfresh
  have hperm := fun choices : Choices => lb.getHealthyNodes_perm choices.order
  have hrobin : (∀ choices : Choices, Takes lb.healthyNodes (wanted count)
      (lb.selectRoundRobin (lb.getHealthyNodes choices.order) (wanted count)).2) ↔
      wanted count ≤ lb.healthyNodes.length :=
    ⟨fun h => (takes_selectRoundRobin_iff hfresh hsome _).mp (h ⟨.asGiven, .asGiven, fun _ => 0⟩),
      fun h choices => (takes_selectRoundRobin_iff hfresh hsome choices.order).mpr h⟩
  unfold Selects selectNodes Selectable
  simp only [length_getHealthyNodes, hsome, if_false, wanted_eq]
  cases hpolicy : lb.policy with
  | roundRobin => simpa using hrobin
  | other => simpa using hrobin
  | random =>
    simpa using fun choices => takes_selectRandom choices.shuffle (hperm choices) hids
  | leastConn =>
    simpa [selectLeastConnections] using fun choices =>
      takes_take ((perm_insertionSort _ _).trans (hperm choices)) hids
  | weighted =>
    have := takes_selectWeighted_iff hfresh hsome (n := wanted count) (by rw [wanted]; omega)
    simpa using this
  | consistent =>
    simpa using fun choices => takes_selectConsistentHash hfresh hpolicy (hperm choices)

end Selection

/-- Two nodes with the given weights, and a third that is down. -/
def twoNodes (policy : LoadBalancingPolicy) (weight weight' : Int64) : LoadBalancer :=
  balancerAfter (fun _ => 0) policy [
    .addNode ⟨"a", true, weight, 0⟩ .asGiven, .addNode ⟨"b", true, weight', 0⟩ .asGiven,
    .addNode ⟨"c", false, 1, 0⟩ .asGiven]

theorem selects_two_of_two : (twoNodes .roundRobin 1 1).healthyNodes ≠ [] ∧
    ∀ choices, Selects (fun _ => 0) (twoNodes .roundRobin 1 1) choices "k" 2 :=
  ⟨by decide, (selects_iff (fun _ => 0) .roundRobin _ "k" 2 (by decide)).mpr
    (show wanted 2 ≤ _ by decide)⟩

/-- Maps in the order they have, and the same number each time. -/
def plainChoices : Choices := ⟨.asGiven, .asGiven, fun _ => 0⟩

/-- Asked for three of two nodes, round robin returns one of them twice. A weighted call may
draw the same node again, and panics if the weights sum to a negative number. -/
theorem not_selects_three_of_two :
    (((twoNodes .roundRobin 1 1).selectNodes (fun _ => 0) plainChoices "k" 3).2 =
        some (.ok [⟨"b", true, 1, 0⟩, ⟨"a", true, 1, 0⟩, ⟨"b", true, 1, 0⟩]) ∧
      ¬Selects (fun _ => 0) (twoNodes .roundRobin 1 1) plainChoices "k" 3) ∧
    (((twoNodes .weighted 1 1).selectNodes (fun _ => 0) plainChoices "k" 2).2 =
        some (.ok [⟨"b", true, 1, 0⟩, ⟨"b", true, 1, 0⟩]) ∧
      ¬Selects (fun _ => 0) (twoNodes .weighted 1 1) plainChoices "k" 2) ∧
    ((twoNodes .weighted 1 (-2)).selectNodes (fun _ => 0) plainChoices "k" 1).2 = none ∧
      ¬Selects (fun _ => 0) (twoNodes .weighted 1 (-2)) plainChoices "k" 1 := by
  refine ⟨⟨rfl, ?_⟩, ⟨rfl, ?_⟩, rfl, ?_⟩
  · rintro ⟨_, ⟨⟩, hlength, -⟩
    exact absurd hlength (by decide)
  · rintro ⟨_, ⟨⟩, -, hnodup, -⟩
    exact absurd hnodup (by decide)
  · rintro ⟨_, ⟨⟩, -⟩

/-! ## Round robin over several calls -/

/-- What calls for one node return, one after the other. -/
def selections (hash : String → UInt64) (lb : LoadBalancer) :
    List (Choices × String) → List (Option (Except String (List NodeInfo)))
  | [] => []
  | (choices, key) :: calls =>
    let (lb, result) := lb.selectNodes hash choices key 1
    result :: selections hash lb calls

/-- The calls select every healthy node exactly once. -/
def Fair (hash : String → UInt64) (lb : LoadBalancer) (calls : List (Choices × String)) : Prop :=
  ∃ selected : List NodeInfo,
    selections hash lb calls = selected.map (fun node => some (.ok [node])) ∧
      selected.Perm lb.healthyNodes

section Fairness

variable {lb : LoadBalancer} {node : NodeInfo}

theorem selectNodes_one (hash : String → UInt64) (lb : LoadBalancer) (choices : Choices)
    (key : String) (hpolicy : lb.policy = .roundRobin)
    (hnode : (lb.getHealthyNodes choices.order)[lb.roundRobinIdx % lb.healthyNodes.length]? =
      some node) : lb.selectNodes hash choices key 1 =
      ({ lb with roundRobinIdx := (lb.roundRobinIdx + 1) % lb.healthyNodes.length },
        some (.ok [node])) := by
  have hsome : lb.healthyNodes.length ≠ 0 := by
    intro hnone
    rw [getElem?_eq_none (by rw [length_getHealthyNodes]; omega)] at hnode
    cases hnode
  simp [selectNodes, hpolicy, selectRoundRobin, length_getHealthyNodes, hsome, hnode]

/-- A loop may visit the node map such that any healthy node comes at any place. -/
theorem exists_order_at (hmem : node ∈ lb.healthyNodes) {place : Nat}
    (hplace : place < lb.healthyNodes.length) :
    ∃ order, (lb.getHealthyNodes order)[place]? = some node := by
  let healthy := lb.nodes.entries.filter fun e => e.2.isHealthy
  have hhealthy : healthy.map Sigma.snd = lb.healthyNodes := filter_map.symm
  obtain ⟨entry, hentry, rfl⟩ := mem_map.mp (hhealthy ▸ hmem)
  rw [← hhealthy, length_map] at hplace
  have hsize := length_erase_of_mem hentry
  -- the entry put at its place among the other healthy ones, and the rest behind them
  let front := (healthy.erase entry).insertIdx place entry
  have hfront : front.Perm healthy :=
    (perm_insertIdx _ _ (by omega)).trans (perm_cons_erase hentry).symm
  obtain ⟨order, horder⟩ := IterationOrder.exists_pick_eq
    ((hfront.append_right (lb.nodes.entries.filter fun e => !e.2.isHealthy)).trans
      (filter_append_perm _ _))
  refine ⟨order, ?_⟩
  have hkeep : front.filter (fun e => e.2.isHealthy) = front :=
    filter_eq_self.mpr fun e he => (mem_filter.mp (hfront.mem_iff.mp he)).2
  have hdrop : (lb.nodes.entries.filter fun e => !e.2.isHealthy).filter (fun e => e.2.isHealthy) =
      [] := by
    simp [filter_filter]
  rw [getHealthyNodes, horder, filter_map]
  show ((List.filter (fun e : (_ : String) × NodeInfo => e.2.isHealthy) _).map Sigma.snd)[place]? =
    _
  rw [filter_append, hkeep, hdrop, append_nil, getElem?_map,
    getElem?_insertIdx_self, if_pos (by omega)]
  rfl

end Fairness

/-- **Round robin is fair whatever the orders exactly if there is nothing to choose.** -/
theorem fair_iff (hash : String → UInt64) (policy : LoadBalancingPolicy)
    (history : List BalancerCall)
    (hpolicy : (balancerAfter hash policy history).policy = .roundRobin) :
    (∀ calls : List (Choices × String),
      calls.length = (balancerAfter hash policy history).healthyNodes.length →
        Fair hash (balancerAfter hash policy history) calls) ↔
      (balancerAfter hash policy history).healthyNodes.length ≤ 1 := by
  have hfresh := (fresh_balancerAfter hash policy history).1
  generalize balancerAfter hash policy history = lb at hpolicy hfresh ⊢
  constructor
  · intro hall
    by_contra hmany
    obtain ⟨n, hn⟩ : ∃ n, lb.healthyNodes.length = n + 2 := ⟨lb.healthyNodes.length - 2, by omega⟩
    obtain ⟨node, hmem⟩ := exists_mem_of_length_pos (l := lb.healthyNodes) (by omega)
    -- the second call finds the node where the index has moved to
    obtain ⟨order, hnode⟩ := exists_order_at hmem (Nat.mod_lt lb.roundRobinIdx (by omega))
    obtain ⟨order', hnode'⟩ := exists_order_at hmem
      (Nat.mod_lt ((lb.roundRobinIdx + 1) % lb.healthyNodes.length) (by omega))
    let choices : Choices := ⟨order, .asGiven, fun _ => 0⟩
    let choices' : Choices := ⟨order', .asGiven, fun _ => 0⟩
    obtain ⟨selected, hselected, hperm⟩ :=
      hall ((choices, "") :: (choices', "") :: List.replicate n (choices, "")) (by simp [hn])
    rw [selections, selectNodes_one hash lb choices "" hpolicy hnode] at hselected
    dsimp only at hselected
    rw [selections, selectNodes_one hash { lb with
      roundRobinIdx := (lb.roundRobinIdx + 1) % lb.healthyNodes.length } choices' "" hpolicy hnode']
      at hselected
    match selected, hselected with
    | first :: second :: rest, hselected =>
      obtain ⟨rfl, rfl, -⟩ : node = first ∧ node = second ∧ _ := by simpa using hselected
      have hnodup := hperm.nodup_iff.mpr (nodup_ids_healthyNodes hfresh).of_map
      simp at hnodup
  · intro hone calls hlen
    rcases Nat.le_one_iff_eq_zero_or_eq_one.mp hone with hnone | hone
    · obtain rfl := eq_nil_of_length_eq_zero (hlen.trans hnone)
      exact ⟨[], rfl, eq_nil_of_length_eq_zero hnone ▸ .rfl⟩
    obtain ⟨node, hhealthy⟩ := length_eq_one_iff.mp hone
    obtain ⟨⟨choices, key⟩, rfl⟩ := length_eq_one_iff.mp (hlen.trans hone)
    have honly : lb.getHealthyNodes choices.order = [node] :=
      perm_singleton.mp (hhealthy ▸ lb.getHealthyNodes_perm choices.order)
    refine ⟨[node], ?_, hhealthy ▸ .rfl⟩
    have hnode : (lb.getHealthyNodes choices.order)[lb.roundRobinIdx % lb.healthyNodes.length]? =
        some node := by
      simp [honly, hone, Nat.mod_one]
    rw [selections, selectNodes_one hash lb choices key hpolicy hnode]
    rfl

/-- One node, under round robin. -/
def oneNode : LoadBalancer :=
  balancerAfter (fun _ => 0) .roundRobin [.addNode ⟨"a", true, 1, 0⟩ .asGiven]

theorem fair_oneNode : oneNode.policy = .roundRobin ∧
    ∀ calls : List (Choices × String), calls.length = 1 → Fair (fun _ => 0) oneNode calls :=
  ⟨rfl, (fair_iff (fun _ => 0) .roundRobin [.addNode ⟨"a", true, 1, 0⟩ .asGiven] rfl).mpr
    (by decide)⟩

/-- One call in the order of the map, and one in the reverse order. -/
def bothOrders : List (Choices × String) :=
  [(plainChoices, "k"), (⟨⟨List.reverse, List.reverse_perm⟩, .asGiven, fun _ => 0⟩, "k")]

/-- With the map visited in one order and then the other, two calls both select one of two
nodes. -/
theorem not_fair_two :
    (twoNodes .roundRobin 1 1).healthyNodes = [⟨"b", true, 1, 0⟩, ⟨"a", true, 1, 0⟩] ∧
      selections (fun _ => 0) (twoNodes .roundRobin 1 1) bothOrders =
        [some (.ok [⟨"b", true, 1, 0⟩]), some (.ok [⟨"b", true, 1, 0⟩])] ∧
      ¬Fair (fun _ => 0) (twoNodes .roundRobin 1 1) bothOrders := by
  refine ⟨rfl, rfl, ?_⟩
  rintro ⟨selected, heq, hperm⟩
  have hmem : (⟨"a", true, 1, 0⟩ : NodeInfo) ∈ selected := hperm.mem_iff.mpr (by decide)
  have hresult : some (.ok [⟨"a", true, 1, 0⟩]) ∈
      selections (fun _ => 0) (twoNodes .roundRobin 1 1) bothOrders :=
    heq ▸ mem_map_of_mem hmem
  exact absurd hresult (by decide)

end LoadBalancer

end DistributedKV.Client
