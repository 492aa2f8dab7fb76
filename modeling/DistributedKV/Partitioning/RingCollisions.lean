import DistributedKV.Lib.Lts
import DistributedKV.Partitioning.HashRing

/-!
# A ring with hash collisions

The hash of a virtual-node key has 64 bits, so two of them may be the same. A ring keeps the hash
in its sorted list twice then, and in its map under the node that was added last.

`RemoveNode` deletes a hash from the map at its first place in the list. At the next place the map
has nothing, which reads as the empty name: that is not the name of the removed node, and the hash
stays in the list with no node to it. (With the empty name for a node all places are dropped, those
of other nodes as well.)
-/

namespace DistributedKV.Partitioning

open AList List

/-- The list and the map of a ring belong together, and every key has a node. -/
structure InStep (hash : String → UInt64) (hr : HashRing) : Prop where
  sorted : hr.sortedHashes.Pairwise (· ≤ ·)
  listed : ∀ p, p ∈ hr.sortedHashes ↔ p ∈ hr.ring
  members : ∀ p id, hr.ring.lookup p = some id → id ∈ hr.nodes
  answers : ∀ node ∈ hr.nodes, ∀ key, ∃ id ∈ hr.nodes, hr.getNode hash key = .ok id

/-- One call of a history. -/
def ringStep (hash : String → UInt64) (hr : HashRing) (op : RingOp) : Option HashRing :=
  some (hr.apply hash op)

/-- The node can be removed: it shares no hash of its own, unless its name is empty, and if
other nodes remain then so does a hash. -/
def Separable (hr : HashRing) : RingOp → Prop
  | .removeNode nodeID => nodeID ∈ hr.nodes →
    (nodeID = "" ∨ ∀ p ∈ hr.sortedHashes, hr.ring.lookup p = some nodeID →
      hr.sortedHashes.count p = 1) ∧
    ((∃ id ∈ hr.nodes, id ≠ nodeID) → ∃ p ∈ hr.sortedHashes, hr.ring.lookup p ≠ some nodeID)
  | _ => True

section Proofs

variable {hash : String → UInt64} {hr hr' : HashRing} {nodeID : String} {p : UInt64}

/-! ## What `RemoveNode` keeps -/

open HashRing

/-- A hash of another node is kept, and so is the second copy of one of the removed node, if its
name is not empty. -/
theorem mem_dropHashes {ring : GoMap UInt64 String} {hashes : List UInt64} :
    p ∈ (dropHashes nodeID ring hashes).2 ↔
      p ∈ hashes ∧ ((ring.lookup p).getD "" ≠ nodeID ∨ nodeID ≠ "" ∧ 2 ≤ hashes.count p) := by
  induction hashes generalizing ring with
  | nil => simp [dropHashes]
  | cons h rest ih =>
    rw [dropHashes]
    split_ifs with hdrop
    · rw [mem_cons, mem_cons, ih]
      by_cases hp : p = h
      · subst hp
        simp [hdrop]
      · rw [count_cons_of_ne (Ne.symm hp)]
        simp [hp]
    rw [ih]
    by_cases hp : p = h
    · -- the map has nothing at `h` any more, so the later copies are kept
      subst hp
      rw [lookup_erase, count_cons_self]
      have hcount : p ∈ rest ↔ 1 ≤ rest.count p := count_pos_iff.symm
      simp only [Option.getD_none, mem_cons_self, true_and, hdrop, false_or, hcount]
      grind
    · rw [lookup_erase_ne hp, count_cons_of_ne (Ne.symm hp), mem_cons]
      simp [hp]

theorem dropHashes_sublist {ring : GoMap UInt64 String} {hashes : List UInt64} :
    (dropHashes nodeID ring hashes).2.Sublist hashes := by
  induction hashes generalizing ring with
  | nil => exact List.Sublist.slnil
  | cons h rest ih =>
    rw [dropHashes]
    split
    · exact ih.cons_cons h
    · exact ih.cons h

/-! ## The list and the map -/

/-- If there is a hash at all, `GetNode` answers with a node of the ring. -/
theorem getNode_of_members (hlisted : ∀ p, p ∈ hr.sortedHashes ↔ p ∈ hr.ring)
    (hmembers : ∀ p id, hr.ring.lookup p = some id → id ∈ hr.nodes)
    (hne : 0 < hr.sortedHashes.length) (key : String) :
    ∃ id ∈ hr.nodes, hr.getNode hash key = .ok id := by
  have hread : hr.sortedHashes.getD (hr.startIndex (hash key)) 0 ∈ hr.sortedHashes := by
    rw [getD_eq_getElem?_getD, getElem?_eq_getElem (startIndex_lt hne)]
    exact getElem_mem _
  obtain ⟨id, hid⟩ := GoMap.exists_lookup ((hlisted _).mp hread)
  refine ⟨id, hmembers _ id hid, ?_⟩
  rw [getNode, if_neg hne.ne']
  show Except.ok ((hr.ring.lookup _).getD "") = _
  rw [hid, Option.getD_some]

theorem inStep_new (virtualNodes : Int) : InStep hash (newHashRing virtualNodes) := by
  refine ⟨?_, ?_, ?_, ?_⟩ <;> simp [newHashRing]

theorem InStep.addNode (hin : InStep hash hr) {node : Node}
    (h : hr.addNode hash node = .ok hr') : InStep hash hr' := by
  rw [HashRing.addNode] at h
  split at h
  · cases h
  cases h
  have hmem : ∀ p, p ∈ (hr.sortedHashes ++ virtualHashes hash hr.virtualNodes node.id).insertionSort
      (· ≤ ·) ↔ p ∈ hr.sortedHashes ∨ p ∈ virtualHashes hash hr.virtualNodes node.id := fun p => by
    rw [mem_insertionSort, mem_append]
  have hlisted : ∀ p,
      p ∈ (hr.sortedHashes ++ virtualHashes hash hr.virtualNodes node.id).insertionSort (· ≤ ·) ↔
        p ∈ (virtualHashes hash hr.virtualNodes node.id).foldl
          (fun ring h => ring.insert h node.id) hr.ring := by
    intro p
    rw [hmem, hin.listed, ← lookup_isSome (s := hr.ring), ← lookup_isSome, lookup_foldl_insert]
    split <;> simp [*]
  have hmembers : ∀ p id, ((virtualHashes hash hr.virtualNodes node.id).foldl
      (fun ring h => ring.insert h node.id) hr.ring).lookup p = some id →
        id ∈ hr.nodes.insert node.id node := by
    intro p id hlook
    rw [lookup_foldl_insert] at hlook
    split at hlook
    · cases hlook
      exact mem_insert _ |>.mpr (Or.inl rfl)
    · exact mem_insert _ |>.mpr (Or.inr (hin.members p id hlook))
  refine ⟨pairwise_insertionSort _ _, hlisted, hmembers, fun _ _ key => ?_⟩
  have hpoint := (hmem (hash (virtualKey node.id 0))).mpr
    (Or.inr (mem_virtualHashes.mpr ⟨0, hr.virtualNodes_pos, rfl⟩))
  exact getNode_of_members hlisted hmembers (length_pos_of_mem hpoint) key

theorem InStep.updateNodeStatus (hin : InStep hash hr) {status : NodeStatus}
    (h : hr.updateNodeStatus nodeID status = .ok hr') : InStep hash hr' := by
  rw [HashRing.updateNodeStatus] at h
  split at h
  · cases h
  cases h
  refine ⟨hin.sorted, hin.listed, fun p id hlook => ?_, fun node hnode key => ?_⟩
  · exact GoMap.mem_modify.mpr (hin.members p id hlook)
  · obtain ⟨id, hid, hget⟩ := hin.answers node (GoMap.mem_modify.mp hnode) key
    exact ⟨id, GoMap.mem_modify.mpr hid, hget⟩

section

variable (h : hr.removeNode nodeID = .ok hr')
include h

/-- What is left of a ring that was in step: the map has the hashes of the other nodes. -/
theorem InStep.mem_ring_removeNode (hin : InStep hash hr) :
    (∀ p, p ∈ hr'.ring ↔ p ∈ hr.sortedHashes ∧ hr.ring.lookup p ≠ some nodeID) ∧
      ∀ p id, hr'.ring.lookup p = some id → hr.ring.lookup p = some id ∧ id ≠ nodeID := by
  have hlook : ∀ p, hr'.ring.lookup p =
      if hr.ring.lookup p = some nodeID then none else hr.ring.lookup p := by
    intro p
    rw [(removeNode_eq_ok h).2.1, lookup_dropHashes]
    cases hp : hr.ring.lookup p with
    | none => simp
    | some id => simp [(hin.listed p).mpr (GoMap.mem_of_lookup hp)]
  constructor
  · intro p
    rw [← lookup_isSome, hlook, hin.listed, ← lookup_isSome]
    split <;> simp [*]
  intro p id hid
  rw [hlook] at hid
  split at hid
  · cases hid
  next hne =>
    refine ⟨hid, ?_⟩
    rintro rfl
    exact hne hid

/-- A hash that the list has after a removal is one of another node, or was there twice. -/
theorem InStep.mem_sortedHashes_removeNode (hin : InStep hash hr) :
    p ∈ hr'.sortedHashes ↔ p ∈ hr.sortedHashes ∧
      (hr.ring.lookup p ≠ some nodeID ∨ nodeID ≠ "" ∧ 2 ≤ hr.sortedHashes.count p) := by
  rw [(removeNode_eq_ok h).2.2, mem_dropHashes, and_congr_right]
  intro hp
  obtain ⟨id, hid⟩ := GoMap.exists_lookup ((hin.listed p).mp hp)
  simp [hid]

theorem mem_nodes_removeNode (id : String) : id ∈ hr'.nodes ↔ id ≠ nodeID ∧ id ∈ hr.nodes := by
  rw [(removeNode_eq_ok h).1]
  exact mem_erase

theorem InStep.removeNode (hin : InStep hash hr)
    (hsep : Separable hr (.removeNode nodeID)) : InStep hash hr' := by
  obtain ⟨hring, hlook⟩ := hin.mem_ring_removeNode h
  obtain ⟨hsingle, hleft⟩ := hsep (mem_of_removeNode h)
  have hlisted : ∀ p, p ∈ hr'.sortedHashes ↔ p ∈ hr'.ring := by
    intro p
    rw [hin.mem_sortedHashes_removeNode h, hring, and_congr_right_iff]
    intro hp
    refine ⟨fun hkept howner => ?_, Or.inl⟩
    rcases hkept with hother | ⟨hname, htwice⟩
    · exact hother howner
    · have honce := hsingle.resolve_left hname p hp howner
      omega
  have hmembers : ∀ p id, hr'.ring.lookup p = some id → id ∈ hr'.nodes := by
    intro p id hid
    obtain ⟨hold, hne⟩ := hlook p id hid
    exact (mem_nodes_removeNode h id).mpr ⟨hne, hin.members p id hold⟩
  refine ⟨?_, hlisted, hmembers, fun node hnode key => ?_⟩
  · rw [(removeNode_eq_ok h).2.2]
    exact hin.sorted.sublist dropHashes_sublist
  obtain ⟨hne, hold⟩ := (mem_nodes_removeNode h node).mp hnode
  obtain ⟨p, hp, howner⟩ := hleft ⟨node, hold, hne⟩
  have hkept : p ∈ hr'.sortedHashes := (hin.mem_sortedHashes_removeNode h).mpr ⟨hp, Or.inl howner⟩
  exact getNode_of_members hlisted hmembers (length_pos_of_mem hkept) key

/-- A removal that is not separable leaves a hash without a node, or nodes without a hash. -/
theorem InStep.not_removeNode (hin : InStep hash hr)
    (hsep : ¬Separable hr (.removeNode nodeID)) : ¬InStep hash hr' := by
  intro hin'
  obtain ⟨hring, -⟩ := hin.mem_ring_removeNode h
  have hsingle : nodeID = "" ∨ ∀ p ∈ hr.sortedHashes, hr.ring.lookup p = some nodeID →
      hr.sortedHashes.count p = 1 := by
    by_contra hshared
    rw [not_or] at hshared
    obtain ⟨hname, hshared⟩ := hshared
    push Not at hshared
    obtain ⟨p, hp, howner, htwice⟩ := hshared
    have hpos : 0 < hr.sortedHashes.count p := count_pos_iff.mpr hp
    have hkept : p ∈ hr'.sortedHashes :=
      (hin.mem_sortedHashes_removeNode h).mpr ⟨hp, Or.inr ⟨hname, by omega⟩⟩
    exact ((hring p).mp ((hin'.listed p).mp hkept)).2 howner
  have hleft : (∃ id ∈ hr.nodes, id ≠ nodeID) →
      ∃ p ∈ hr.sortedHashes, hr.ring.lookup p ≠ some nodeID := by
    rintro ⟨id, hid, hne⟩
    obtain ⟨owner, -, hget⟩ := hin'.answers id ((mem_nodes_removeNode h id).mpr ⟨hne, hid⟩) ""
    have hnonempty : hr'.sortedHashes.length ≠ 0 := by
      intro hempty
      rw [getNode, if_pos hempty] at hget
      cases hget
    obtain ⟨p, hp⟩ := exists_mem_of_length_pos (Nat.pos_of_ne_zero hnonempty)
    obtain ⟨hp, hother⟩ := (hring p).mp ((hin'.listed p).mp hp)
    exact ⟨p, hp, hother⟩
  exact hsep fun _ => ⟨hsingle, hleft⟩

end

/-- **Collisions.** After every call of a history, for any hash function, the list is sorted and
has the hashes of the map, which names no removed node, and every key has a node if there is
one: exactly if each node was separable when it was removed. -/
theorem inStep_trace_iff (hash : String → UInt64) (virtualNodes : Int) (ops : List RingOp) :
    (∀ hr ∈ Lts.trace (ringStep hash) (newHashRing virtualNodes) ops, InStep hash hr) ↔
      Lts.Along (ringStep hash) Separable (newHashRing virtualNodes) ops := by
  refine Lts.forall_trace_iff_along (fun _ _ _ (_ : True) _ => trivial) ?_ ?_ ops _ trivial
    (inStep_new virtualNodes)
  · intro hr op t _ hin hsep hstep
    cases hstep
    refine apply_induction hin ?_ ?_ ?_
    · rintro node hr' rfl h
      exact hin.addNode h
    · rintro nodeID hr' rfl h
      exact hin.removeNode h hsep
    · rintro nodeID status hr' rfl h
      exact hin.updateNodeStatus h
  intro hr op _ hin hsep
  refine ⟨_, rfl, ?_⟩
  cases op with
  | addNode node => exact absurd trivial hsep
  | updateNodeStatus nodeID status => exact absurd trivial hsep
  | removeNode nodeID =>
    have hmem : nodeID ∈ hr.nodes := by_contra fun hnot => hsep fun hmem => absurd hmem hnot
    obtain ⟨hr', h⟩ := exists_removeNode hmem
    simpa [apply, h, Except.toOption] using hin.not_removeNode h hsep

end Proofs

/-- Two nodes whose only points have the same hash: after the second one is removed that hash is
still in the list, and every key is given to the node with the empty name, which does not exist.
-/
theorem collision_counterexample :
    (ringAfter (fun _ => 7) 1 [.addNode ⟨"a", .active⟩, .addNode ⟨"b", .active⟩,
        .removeNode "b"]).nodes.keys = ["a"] ∧
      (ringAfter (fun _ => 7) 1 [.addNode ⟨"a", .active⟩, .addNode ⟨"b", .active⟩,
        .removeNode "b"]).sortedHashes = [7] ∧
      (ringAfter (fun _ => 7) 1 [.addNode ⟨"a", .active⟩, .addNode ⟨"b", .active⟩,
        .removeNode "b"]).ring.lookup 7 = none ∧
      (ringAfter (fun _ => 7) 1 [.addNode ⟨"a", .active⟩, .addNode ⟨"b", .active⟩,
        .removeNode "b"]).getNode (fun _ => 7) "k" = .ok "" ∧
      ¬∀ hr ∈ Lts.trace (ringStep fun _ => 7) (newHashRing 1)
        [.addNode ⟨"a", .active⟩, .addNode ⟨"b", .active⟩, .removeNode "b"],
          InStep (fun _ => 7) hr := by
  refine ⟨by decide +kernel, by decide +kernel, by decide +kernel, by decide +kernel,
    fun hall => ?_⟩
  have hlast := (hall _ (Lts.exec_mem_trace rfl)).listed 7
  exact absurd (hlast.mp (by decide +kernel)) (by decide +kernel)

end DistributedKV.Partitioning
