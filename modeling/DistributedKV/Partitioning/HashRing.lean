import DistributedKV.Lib.GoMap
import DistributedKV.Lib.HashCircle

/-!
# The hash ring (`hash_ring.go`)

Consistent hashing: every node owns `virtualNodes` points of the 64-bit circle, the hashes of its
virtual-node keys, and a key belongs to the node whose point is met first going up from its hash.
The hash function is a parameter (the source takes the first eight bytes of a SHA-256), and so is
the order in which a loop visits a map. `NoCollisions`: no two virtual-node keys have one hash.

`Placed`: the ring holds the points of its nodes, sorted, and nothing else. Every operation keeps
it, and all of consistent hashing follows from `getNode_of_subset`.
-/

namespace DistributedKV.Partitioning

open AList List

instance hashOrder : LinearOrder UInt64 where
  le_refl _ := UInt64.le_refl _
  le_trans _ _ _ := UInt64.le_trans
  le_antisymm _ _ := UInt64.le_antisymm
  le_total := UInt64.le_total
  lt_iff_le_not_ge a b := by
    rw [UInt64.not_le]
    exact ⟨fun h => ⟨UInt64.le_of_lt h, h⟩, fun h => h.2⟩
  toDecidableLE := inferInstance

/-- `NodeStatus`. -/
inductive NodeStatus where
  | active
  | inactive
  | failed
  | draining
deriving DecidableEq, Repr

/-- `Node`: what the ring reads of it. -/
structure Node where
  id : String
  status : NodeStatus

/-- `KeyRange`; `stop` is the field `End`. -/
structure KeyRange where
  start : UInt64
  stop : UInt64
deriving DecidableEq, Repr

/-- `HashRing`. There is at least one virtual node per node: `NewHashRing` replaces other
numbers. -/
structure HashRing where
  ring : GoMap UInt64 String
  sortedHashes : List UInt64
  nodes : GoMap String Node
  virtualNodes : Nat
  virtualNodes_pos : 0 < virtualNodes

theorem virtualNodes_or_default_pos (virtualNodes : Int) :
    0 < if virtualNodes ≤ 0 then 150 else virtualNodes.toNat := by
  split <;> omega

/-- `NewHashRing`. -/
def newHashRing (virtualNodes : Int) : HashRing where
  ring := ∅
  sortedHashes := []
  nodes := ∅
  virtualNodes := if virtualNodes ≤ 0 then 150 else virtualNodes.toNat
  virtualNodes_pos := virtualNodes_or_default_pos virtualNodes

/-- The key of a virtual node, `fmt.Sprintf("%s:%d", nodeID, i)`. -/
def virtualKey (nodeID : String) (i : Nat) : String := nodeID ++ ":" ++ toString i

section Model

variable (hash : String → UInt64)

/-- The points of a node, in the order in which they are placed. -/
def virtualHashes (virtualNodes : Nat) (nodeID : String) : List UInt64 :=
  (List.range virtualNodes).map fun i => hash (virtualKey nodeID i)

namespace HashRing

variable (hr : HashRing)

/-- The loop that places the virtual nodes of one node, without the sorting. -/
def place (nodeID : String) : HashRing :=
  { hr with
    ring := (virtualHashes hash hr.virtualNodes nodeID).foldl
      (fun ring h => ring.insert h nodeID) hr.ring
    sortedHashes := hr.sortedHashes ++ virtualHashes hash hr.virtualNodes nodeID }

/-- `sort.Slice(hr.sortedHashes, ...)`. -/
def sortHashes : HashRing :=
  { hr with sortedHashes := hr.sortedHashes.insertionSort (· ≤ ·) }

/-- `AddNode`. -/
def addNode (node : Node) : Except String HashRing :=
  if node.id ∈ hr.nodes then .error ("node " ++ node.id ++ " already exists")
  else .ok (({ hr with nodes := hr.nodes.insert node.id node }.place hash node.id).sortHashes)

/-- The loop of `RemoveNode` over the sorted hashes. A hash that is not in the map reads as the
empty string. -/
def dropHashes (nodeID : String) :
    GoMap UInt64 String → List UInt64 → GoMap UInt64 String × List UInt64
  | ring, [] => (ring, [])
  | ring, h :: rest =>
    if (ring.lookup h).getD "" ≠ nodeID then
      let (ring, kept) := dropHashes nodeID ring rest
      (ring, h :: kept)
    else dropHashes nodeID (ring.erase h) rest

/-- `RemoveNode`. -/
def removeNode (nodeID : String) : Except String HashRing :=
  if nodeID ∉ hr.nodes then .error ("node " ++ nodeID ++ " not found")
  else
    let (ring, kept) := dropHashes nodeID hr.ring hr.sortedHashes
    .ok { hr with ring := ring, sortedHashes := kept, nodes := hr.nodes.erase nodeID }

/-- `UpdateNodeStatus`. -/
def updateNodeStatus (nodeID : String) (status : NodeStatus) :
    Except String HashRing :=
  if nodeID ∉ hr.nodes then .error ("node " ++ nodeID ++ " not found")
  else .ok { hr with
    nodes := GoMap.modify hr.nodes nodeID fun node => { node with status := status } }

/-- `sort.Search` for the first hash that is not below `h`, wrapped around. -/
def startIndex (h : UInt64) : Nat :=
  let idx := hr.sortedHashes.findIdx fun p => decide (h ≤ p)
  if idx = hr.sortedHashes.length then 0 else idx

/-- `GetNode`. -/
def getNode (key : String) : Except String String :=
  if hr.sortedHashes.length = 0 then .error "no nodes available"
  else
    let idx := hr.startIndex (hash key)
    let nodeHash := hr.sortedHashes.getD idx 0
    .ok ((hr.ring.lookup nodeHash).getD "")

/-- The loop of `GetNodes`. `none`: the loop has not ended within `fuel` turns. -/
def collectNodes (hr : HashRing) (count : Nat) :
    Nat → Nat → List String → List String → Option (List String)
  | 0, _, _, _ => none
  | fuel + 1, idx, uniqueNodes, result =>
    if result.length < count ∧ uniqueNodes.length < hr.nodes.len then
      let nodeHash := hr.sortedHashes.getD idx 0
      let nodeID := (hr.ring.lookup nodeHash).getD ""
      let next := (idx + 1) % hr.sortedHashes.length
      if nodeID ∈ uniqueNodes then collectNodes hr count fuel next uniqueNodes result
      else if (hr.nodes.lookup nodeID).map Node.status = some .active then
        collectNodes hr count fuel next (nodeID :: uniqueNodes) (result ++ [nodeID])
      else collectNodes hr count fuel next (nodeID :: uniqueNodes) result
    else some result

/-- The largest capacity of a slice of strings, `maxAlloc` divided by the size of a string. -/
def maxCapacity : Nat := 17592186044416

/-- `GetNodes`. `none`: the loop has not ended within `fuel` turns, or `make([]string, 0, count)`
panics because the capacity is out of range. Memory is not limited otherwise. -/
def getNodes (fuel : Nat) (key : String) (count : Int) :
    Option (Except String (List String)) :=
  if hr.nodes.len = 0 then some (.error "no nodes available")
  else
    let count := if count ≤ 0 then 1 else count.toNat
    if maxCapacity < count then none
    else
      (hr.collectNodes count fuel (hr.startIndex (hash key)) [] []).map fun result =>
        if result.length = 0 then .error "no active nodes available" else .ok result

/-- `Clone`; `order` is the order of its second loop. -/
def clone (order : IterationOrder ((_ : String) × Node)) : HashRing :=
  let newRing := { newHashRing hr.virtualNodes with nodes := hr.nodes }
  ((order.pick hr.nodes.entries).foldl (fun r e => r.place hash e.2.id) newRing).sortHashes

end HashRing

/-- The calls that change a ring. -/
inductive RingOp where
  | addNode (node : Node)
  | removeNode (nodeID : String)
  | updateNodeStatus (nodeID : String) (status : NodeStatus)

/-- A call on a ring; one that fails changes nothing. -/
def HashRing.apply (hr : HashRing) : RingOp → HashRing
  | .addNode node => (hr.addNode hash node).toOption.getD hr
  | .removeNode nodeID => (hr.removeNode nodeID).toOption.getD hr
  | .updateNodeStatus nodeID status => (hr.updateNodeStatus nodeID status).toOption.getD hr

/-- The ring after a history of calls. -/
def ringAfter (virtualNodes : Int) (ops : List RingOp) : HashRing :=
  ops.foldl (HashRing.apply hash) (newHashRing virtualNodes)

/-- No two virtual-node keys of the given nodes have the same hash. -/
def NoCollisions (virtualNodes : Nat) (nodeIDs : List String) : Prop :=
  ∀ id ∈ nodeIDs, ∀ i < virtualNodes, ∀ id' ∈ nodeIDs, ∀ i' < virtualNodes,
    hash (virtualKey id i) = hash (virtualKey id' i') → virtualKey id i = virtualKey id' i'

instance (virtualNodes : Nat) (nodeIDs : List String) :
    Decidable (NoCollisions hash virtualNodes nodeIDs) := by
  unfold NoCollisions
  infer_instance

/-- The node that a call adds is one of the given ones. -/
def RingOp.Within (nodeIDs : List String) : RingOp → Prop
  | .addNode node => node.id ∈ nodeIDs
  | _ => True

instance (nodeIDs : List String) : ∀ op : RingOp, Decidable (op.Within nodeIDs) := fun op => by
  cases op <;> dsimp only [RingOp.Within] <;> infer_instance

end Model

/-! ## Virtual-node keys -/

theorem append_cons_inj {α : Type*} {c : α} {x x' z z' : List α} (hz : c ∉ z) (hz' : c ∉ z')
    (h : x ++ c :: z = x' ++ c :: z') : x = x' ∧ z = z' := by
  rcases append_eq_append_iff.mp h with ⟨a, hx, ha⟩ | ⟨a, hx, ha⟩
  all_goals
    cases a with
    | nil => simp_all
    | cons b a =>
      -- the shorter of the two ends would have a `c`
      obtain ⟨-, rfl⟩ := cons_eq_cons.mp ha
      simp at hz hz'

/-- The last colon of a virtual-node key ends the node's id. -/
theorem virtualKey_inj {id id' : String} {i i' : Nat} (h : virtualKey id i = virtualKey id' i') :
    id = id' ∧ i = i' := by
  have hcolon : ∀ n : Nat, ':' ∉ Nat.toDigits 10 n := fun n hmem =>
    absurd (Nat.isDigit_of_mem_toDigits (by decide) (by decide) hmem) (by decide)
  have hlists : id.toList ++ ':' :: Nat.toDigits 10 i =
      id'.toList ++ ':' :: Nat.toDigits 10 i' := by
    simpa [virtualKey, Nat.toString_eq_repr, Nat.toList_repr] using congrArg String.toList h
  obtain ⟨hid, hdigits⟩ := append_cons_inj (hcolon i) (hcolon i') hlists
  have hread := congrArg (Nat.ofDigitChars 10 · 0) hdigits
  simp only [Nat.ofDigitChars_toDigits (b := 10) (by decide) (by decide)] at hread
  exact ⟨String.toList_inj.mp hid, hread⟩

section Proofs

variable {hash : String → UInt64} {hr hr' : HashRing} {nodeIDs : List String}
  {id id' nodeID : String} {p h : UInt64} {v : Nat}

theorem mem_virtualHashes : p ∈ virtualHashes hash v id ↔ ∃ i < v, hash (virtualKey id i) = p := by
  simp [virtualHashes]

theorem NoCollisions.eq (hfree : NoCollisions hash v nodeIDs) (hid : id ∈ nodeIDs)
    (hid' : id' ∈ nodeIDs) (hp : p ∈ virtualHashes hash v id)
    (hp' : p ∈ virtualHashes hash v id') : id = id' := by
  obtain ⟨i, hi, hhash⟩ := mem_virtualHashes.mp hp
  obtain ⟨i', hi', rfl⟩ := mem_virtualHashes.mp hp'
  exact (virtualKey_inj (hfree id hid i hi id' hid' i' hi' hhash)).1

theorem NoCollisions.nodup (hfree : NoCollisions hash v nodeIDs) (hid : id ∈ nodeIDs) :
    (virtualHashes hash v id).Nodup := by
  refine Nodup.map_on ?_ nodup_range
  intro i hi i' hi' hhash
  rw [mem_range] at hi hi'
  exact (virtualKey_inj (hfree id hid i hi id hid i' hi' hhash)).2

/-! ## What is on the ring -/

/-- The points of the nodes in `placed` are on the ring, once and under the name of their node,
and nothing else is. -/
structure Scattered (hash : String → UInt64) (placed : Set String) (hr : HashRing) : Prop where
  nodup : hr.sortedHashes.Nodup
  mem : ∀ p, p ∈ hr.sortedHashes ↔ ∃ id ∈ placed, p ∈ virtualHashes hash hr.virtualNodes id
  owner : ∀ id ∈ placed, ∀ p ∈ virtualHashes hash hr.virtualNodes id, hr.ring.lookup p = some id

/-- **The invariant of a ring**: sorted, with the points of exactly its nodes. -/
structure Placed (hash : String → UInt64) (hr : HashRing) : Prop where
  keyed : ∀ id node, hr.nodes.lookup id = some node → node.id = id
  sorted : hr.sortedHashes.Pairwise (· < ·)
  scattered : Scattered hash {id | id ∈ hr.nodes} hr

variable {ring : GoMap UInt64 String} {hashes : List UInt64} {node : Node}

theorem lookup_foldl_insert : (hashes.foldl (fun ring h => ring.insert h nodeID) ring).lookup p =
      if p ∈ hashes then some nodeID else ring.lookup p := by
  induction hashes generalizing ring with
  | nil => simp
  | cons h hashes ih =>
    rw [foldl_cons, ih]
    by_cases hp : p = h
    · subst hp
      simp
    · simp [hp, lookup_insert_ne hp]

variable {placed : Set String} {status : NodeStatus} {op : RingOp} {ops : List RingOp}
  (ids : List String) {i : Nat}

open HashRing

theorem Scattered.place (h : Scattered hash placed hr)
    (hfree : NoCollisions hash hr.virtualNodes nodeIDs) (hplaced : ∀ id ∈ placed, id ∈ nodeIDs)
    (hnew : nodeID ∉ placed) (hid : nodeID ∈ nodeIDs) :
    Scattered hash (insert nodeID placed) (hr.place hash nodeID) := by
  constructor
  · refine nodup_append'.mpr ⟨h.nodup, hfree.nodup hid, fun p hp hp' => ?_⟩
    obtain ⟨old, hold, hpold⟩ := (h.mem p).mp hp
    obtain rfl := hfree.eq (hplaced old hold) hid hpold hp'
    exact hnew hold
  · intro p
    rw [HashRing.place, mem_append, h.mem]
    constructor
    · rintro (⟨old, hold, hp⟩ | hp)
      · exact ⟨old, Set.mem_insert_of_mem _ hold, hp⟩
      · exact ⟨nodeID, Set.mem_insert _ _, hp⟩
    rintro ⟨id, rfl | hold, hp⟩
    · exact Or.inr hp
    · exact Or.inl ⟨id, hold, hp⟩
  intro id hmem p hp
  rw [HashRing.place, lookup_foldl_insert]
  rcases hmem with rfl | hold
  · exact if_pos hp
  have hother : p ∉ virtualHashes hash hr.virtualNodes nodeID := by
    intro hp'
    obtain rfl := hfree.eq (hplaced id hold) hid hp hp'
    exact hnew hold
  rw [if_neg hother]
  exact h.owner id hold p hp

theorem placed_sortHashes (h : Scattered hash {id | id ∈ hr.nodes} hr)
    (hkeyed : ∀ id node, hr.nodes.lookup id = some node → node.id = id) :
    Placed hash hr.sortHashes := by
  have hperm : (hr.sortedHashes.insertionSort (· ≤ ·)).Perm hr.sortedHashes :=
    perm_insertionSort _ _
  refine ⟨hkeyed, ?_, ⟨hperm.nodup_iff.mpr h.nodup, fun p => ?_, h.owner⟩⟩
  · have hle := pairwise_insertionSort (· ≤ ·) hr.sortedHashes
    exact (hle.and (hperm.nodup_iff.mpr h.nodup)).imp fun hpq => lt_of_le_of_ne hpq.1 hpq.2
  · exact hperm.mem_iff.trans (h.mem p)

/-! ## The operations keep the ring placed -/

theorem placed_new (v : Int) : Placed hash (newHashRing v) := by
  refine ⟨?_, ?_, ⟨?_, ?_, ?_⟩⟩ <;> simp [newHashRing]

theorem Placed.addNode (hplaced : Placed hash hr)
    (hfree : NoCollisions hash hr.virtualNodes nodeIDs) (hnodes : ∀ id ∈ hr.nodes, id ∈ nodeIDs)
    (hid : node.id ∈ nodeIDs) (h : hr.addNode hash node = .ok hr') :
    Placed hash hr' ∧ hr'.virtualNodes = hr.virtualNodes ∧
      ∀ id, id ∈ hr'.nodes ↔ id = node.id ∨ id ∈ hr.nodes := by
  rw [HashRing.addNode] at h
  split at h
  · cases h
  next hnew =>
    cases h
    have hmem : ∀ id, id ∈ hr.nodes.insert node.id node ↔ id = node.id ∨ id ∈ hr.nodes :=
      fun id => mem_insert _
    refine ⟨placed_sortHashes ?_ ?_, rfl, hmem⟩
    · have hset : {id | id ∈ hr.nodes.insert node.id node} = insert node.id {id | id ∈ hr.nodes} :=
        Set.ext hmem
      have hbefore : Scattered hash {id | id ∈ hr.nodes}
          { hr with nodes := hr.nodes.insert node.id node } :=
        ⟨hplaced.scattered.nodup, hplaced.scattered.mem, hplaced.scattered.owner⟩
      show Scattered hash {id | id ∈ hr.nodes.insert node.id node} _
      rw [hset]
      exact hbefore.place hfree hnodes hnew hid
    · intro id other hlook
      rcases GoMap.lookup_insert_eq_some.mp hlook with ⟨rfl, rfl⟩ | ⟨-, hlook⟩
      · rfl
      · exact hplaced.keyed id other hlook

theorem lookup_dropHashes : (dropHashes nodeID ring hashes).1.lookup p =
      if p ∈ hashes ∧ (ring.lookup p).getD "" = nodeID then none else ring.lookup p := by
  induction hashes generalizing ring with
  | nil => simp [dropHashes]
  | cons h rest ih =>
    rw [dropHashes]
    split
    · next hkeep =>
      rw [ih]
      by_cases hp : p = h
      · subst hp
        simp [hkeep]
      · simp [hp]
    · next hdrop =>
      rw [ih]
      by_cases hp : p = h
      · subst hp
        simp [not_not.mp hdrop]
      · simp [hp, lookup_erase_ne hp]

/-- On a list without repetitions the loop keeps the hashes of the other nodes. -/
theorem kept_dropHashes (hnodup : hashes.Nodup) : (dropHashes nodeID ring hashes).2 =
      hashes.filter fun h => (ring.lookup h).getD "" ≠ nodeID := by
  induction hashes generalizing ring with
  | nil => rfl
  | cons h rest ih =>
    obtain ⟨hnot, hrest⟩ := nodup_cons.mp hnodup
    rw [dropHashes]
    split
    · next hkeep =>
      rw [filter_cons_of_pos (by simpa using hkeep), ← ih hrest]
    · next hdrop =>
      rw [filter_cons_of_neg (by simpa using hdrop), ih hrest]
      refine filter_congr fun q hq => ?_
      have hne : q ≠ h := by
        rintro rfl
        exact hnot hq
      rw [lookup_erase_ne hne]

theorem Placed.removeNode (hplaced : Placed hash hr) (h : hr.removeNode nodeID = .ok hr') :
    Placed hash hr' ∧ hr'.virtualNodes = hr.virtualNodes ∧
      ∀ id, id ∈ hr'.nodes ↔ id ≠ nodeID ∧ id ∈ hr.nodes := by
  rw [HashRing.removeNode] at h
  split at h
  · cases h
  next hthere =>
    cases h
    have hmem : ∀ id, id ∈ hr.nodes.erase nodeID ↔ id ≠ nodeID ∧ id ∈ hr.nodes :=
      fun id => mem_erase
    have howner := hplaced.scattered.owner
    have hkept : (dropHashes nodeID hr.ring hr.sortedHashes).2 =
        hr.sortedHashes.filter fun h => (hr.ring.lookup h).getD "" ≠ nodeID :=
      kept_dropHashes hplaced.scattered.nodup
    refine ⟨⟨?_, ?_, ⟨?_, ?_, ?_⟩⟩, rfl, hmem⟩
    · intro id node hlook
      exact hplaced.keyed id node (GoMap.lookup_erase_eq_some.mp hlook).2
    · rw [hkept]
      exact hplaced.sorted.filter _
    · rw [hkept]
      exact hplaced.scattered.nodup.filter _
    · intro p
      rw [hkept, mem_filter, hplaced.scattered.mem, decide_eq_true_iff]
      constructor
      · rintro ⟨⟨id, hid, hp⟩, hne⟩
        rw [howner id hid p hp] at hne
        exact ⟨id, (hmem id).mpr ⟨hne, hid⟩, hp⟩
      rintro ⟨id, hid, hp⟩
      obtain ⟨hne, hold⟩ := (hmem id).mp hid
      refine ⟨⟨id, hold, hp⟩, ?_⟩
      rw [howner id hold p hp]
      exact hne
    · intro id hid p hp
      obtain ⟨hne, hold⟩ := (hmem id).mp hid
      rw [lookup_dropHashes, howner id hold p hp, if_neg]
      rintro ⟨-, heq⟩
      exact hne heq

theorem Placed.updateNodeStatus (hplaced : Placed hash hr)
    (h : hr.updateNodeStatus nodeID status = .ok hr') :
    Placed hash hr' ∧ hr'.virtualNodes = hr.virtualNodes ∧
      ∀ id, id ∈ hr'.nodes ↔ id ∈ hr.nodes := by
  rw [HashRing.updateNodeStatus] at h
  split at h
  · cases h
  cases h
  have hset : {id | id ∈ GoMap.modify hr.nodes nodeID fun node => { node with status := status }} =
      {id | id ∈ hr.nodes} := Set.ext fun id => GoMap.mem_modify
  refine ⟨⟨?_, hplaced.sorted, ?_⟩, rfl, fun id => GoMap.mem_modify⟩
  · intro id node hlook
    rw [GoMap.lookup_modify] at hlook
    split at hlook
    · obtain ⟨old, hold, rfl⟩ := Option.map_eq_some_iff.mp hlook
      exact hplaced.keyed id old hold
    · exact hplaced.keyed id node hlook
  · rw [hset]
    exact ⟨hplaced.scattered.nodup, hplaced.scattered.mem, hplaced.scattered.owner⟩

/-- What a history keeps: the ring is placed, with given nodes and number of virtual nodes. -/
structure Kept (hash : String → UInt64) (nodeIDs : List String) (v : Nat) (hr : HashRing) :
    Prop where
  placed : Placed hash hr
  nodes : ∀ id ∈ hr.nodes, id ∈ nodeIDs
  virtualNodes : hr.virtualNodes = v

/-- What holds of a ring, and of what every call that succeeds makes of it, holds after a call. -/
theorem apply_induction {P : HashRing → Prop} (hold : P hr)
    (hadd : ∀ node hr', op = .addNode node → hr.addNode hash node = .ok hr' → P hr')
    (hremove : ∀ nodeID hr', op = .removeNode nodeID → hr.removeNode nodeID = .ok hr' → P hr')
    (hupdate : ∀ nodeID status hr', op = .updateNodeStatus nodeID status →
      hr.updateNodeStatus nodeID status = .ok hr' → P hr') : P (hr.apply hash op) := by
  have hgetD : ∀ {x : Except String HashRing}, (∀ hr', x = .ok hr' → P hr') →
      P (x.toOption.getD hr) := by
    intro x hnew
    cases x with
    | error e => exact hold
    | ok hr' => exact hnew hr' rfl
  cases op with
  | addNode node => exact hgetD fun hr' => hadd node hr' rfl
  | removeNode nodeID => exact hgetD fun hr' => hremove nodeID hr' rfl
  | updateNodeStatus nodeID status => exact hgetD fun hr' => hupdate nodeID status hr' rfl

theorem kept_apply (hkept : Kept hash nodeIDs v hr) (hfree : NoCollisions hash v nodeIDs)
    (hop : op.Within nodeIDs) : Kept hash nodeIDs v (hr.apply hash op) := by
  obtain rfl := hkept.virtualNodes
  refine apply_induction hkept ?_ ?_ ?_
  · rintro node hr' rfl h
    obtain ⟨hplaced, hsame, hmem⟩ := hkept.placed.addNode hfree hkept.nodes hop h
    refine ⟨hplaced, fun id hnode => ?_, hsame⟩
    rcases (hmem id).mp hnode with rfl | hold
    · exact hop
    · exact hkept.nodes id hold
  · rintro nodeID hr' rfl h
    obtain ⟨hplaced, hsame, hmem⟩ := hkept.placed.removeNode h
    exact ⟨hplaced, fun id hnode => hkept.nodes id ((hmem id).mp hnode).2, hsame⟩
  · rintro nodeID status hr' rfl h
    obtain ⟨hplaced, hsame, hmem⟩ := hkept.placed.updateNodeStatus h
    exact ⟨hplaced, fun id hnode => hkept.nodes id ((hmem id).mp hnode), hsame⟩

/-- A history without collisions ends in a placed ring. -/
theorem kept_ringAfter {virtualNodes : Int}
    (hfree : NoCollisions hash (newHashRing virtualNodes).virtualNodes nodeIDs)
    (hops : ∀ op ∈ ops, op.Within nodeIDs) :
    Kept hash nodeIDs (newHashRing virtualNodes).virtualNodes (ringAfter hash virtualNodes ops) :=
  foldlRecOn ops _ ⟨placed_new _, by simp [newHashRing], rfl⟩ fun _ hkept op hop =>
    kept_apply hkept hfree (hops op hop)

theorem Scattered.placeAll (h : Scattered hash placed hr)
    (hfree : NoCollisions hash hr.virtualNodes nodeIDs) (hplaced : ∀ id ∈ placed, id ∈ nodeIDs)
    {ids : List String} (hids : ∀ id ∈ ids, id ∈ nodeIDs) (hnodup : ids.Nodup)
    (hnew : ∀ id ∈ ids, id ∉ placed) :
    Scattered hash {id | id ∈ placed ∨ id ∈ ids} (ids.foldl (HashRing.place hash) hr) := by
  induction ids generalizing hr placed with
  | nil => simpa using h
  | cons first ids ih =>
    obtain ⟨hfirst, hrest⟩ := nodup_cons.mp hnodup
    have hin := hids first mem_cons_self
    have hnext := h.place hfree hplaced (hnew first mem_cons_self) hin
    have hall := ih hnext hfree
      (by
        rintro id (rfl | hid)
        · exact hin
        · exact hplaced id hid)
      (fun id hid => hids id (mem_cons_of_mem first hid)) hrest
      (by
        rintro id hid (rfl | hold)
        · exact hfirst hid
        · exact hnew id (mem_cons_of_mem first hid) hold)
    have hset : {id | id ∈ placed ∨ id ∈ first :: ids} =
        {id | id ∈ insert first placed ∨ id ∈ ids} := by
      ext id
      simp only [Set.mem_ofPred_eq, Set.mem_insert_iff, mem_cons]
      tauto
    rw [hset]
    exact hall

theorem virtualNodes_foldl_place : (ids.foldl (place hash) hr).virtualNodes = hr.virtualNodes :=
  foldlRecOn (motive := fun hr' : HashRing => hr'.virtualNodes = _) ids _ rfl fun _ h _ _ => h

theorem nodes_foldl_place : (ids.foldl (place hash) hr).nodes = hr.nodes :=
  foldlRecOn (motive := fun hr' : HashRing => hr'.nodes = _) ids _ rfl fun _ h _ _ => h

theorem Placed.clone (hplaced : Placed hash hr)
    (hfree : NoCollisions hash hr.virtualNodes nodeIDs) (hnodes : ∀ id ∈ hr.nodes, id ∈ nodeIDs)
    (order : IterationOrder ((_ : String) × Node)) :
    Placed hash (hr.clone hash order) ∧ (hr.clone hash order).virtualNodes = hr.virtualNodes ∧
      (hr.clone hash order).nodes = hr.nodes := by
  -- the loop goes over the ids of the stored nodes, which are the keys of the map
  let ids := (order.pick hr.nodes.entries).map fun e => e.2.id
  let start : HashRing := { newHashRing hr.virtualNodes with nodes := hr.nodes }
  have hclone : hr.clone hash order = (ids.foldl (place hash) start).sortHashes := by
    rw [HashRing.clone, foldl_map]
  have hstart : start.virtualNodes = hr.virtualNodes := by
    have := hr.virtualNodes_pos
    simp [start, newHashRing]
    omega
  have hperm : ids.Perm hr.nodes.keys := by
    refine ((order.perm _).map _).trans (Perm.of_eq (map_congr_left fun e he => ?_))
    exact hplaced.keyed e.1 e.2 (mem_lookup_iff.mpr he)
  have hmem : ∀ id, id ∈ ids ↔ id ∈ hr.nodes := fun id => hperm.mem_iff.trans mem_keys.symm
  have hscattered : Scattered hash {id | id ∈ (∅ : Set String) ∨ id ∈ ids}
      (ids.foldl (place hash) start) := by
    refine Scattered.placeAll ⟨nodup_nil, by simp [start, newHashRing], by simp⟩
      (by rwa [hstart]) (by simp) (fun id hid => hnodes id ((hmem id).mp hid))
      (hperm.nodup_iff.mpr hr.nodes.keys_nodup) (by simp)
  rw [hclone]
  refine ⟨placed_sortHashes ?_ ?_, ?_, ?_⟩
  · rw [nodes_foldl_place]
    simpa [hmem] using hscattered
  · rw [nodes_foldl_place]
    exact hplaced.keyed
  · rw [sortHashes, virtualNodes_foldl_place, hstart]
  · rw [sortHashes, nodes_foldl_place]

/-! ## Owners -/

/-- The points in the order in which a walk from `startIndex` reads them. -/
theorem getD_startIndex (hi : i < hr.sortedHashes.length) :
    hr.sortedHashes.getD ((hr.startIndex h + i) % hr.sortedHashes.length) 0 =
      (clockwise h hr.sortedHashes).getD i 0 := by
  have hidx : (hr.startIndex h + i) % hr.sortedHashes.length =
      (i + hr.sortedHashes.findIdx fun p => decide (h ≤ p)) % hr.sortedHashes.length := by
    rw [startIndex]
    split
    · next hlen => rw [hlen, Nat.zero_add, Nat.add_mod_right]
    · rw [Nat.add_comm]
  rw [getD_eq_getElem?_getD, getD_eq_getElem?_getD, clockwise, getElem?_rotate hi, hidx]

theorem startIndex_lt (hne : 0 < hr.sortedHashes.length) :
    hr.startIndex h < hr.sortedHashes.length := by
  rw [startIndex]
  split
  · exact hne
  · next hidx => exact lt_of_le_of_ne findIdx_le_length hidx

/-- The search ends at the point that is met first. -/
theorem clockwise_eq_cons (hne : 0 < hr.sortedHashes.length) :
    ∃ rest, clockwise h hr.sortedHashes = hr.sortedHashes.getD (hr.startIndex h) 0 :: rest := by
  have hget := getD_startIndex (h := h) hne
  rw [Nat.add_zero, Nat.mod_eq_of_lt (startIndex_lt hne)] at hget
  cases hcw : clockwise h hr.sortedHashes with
  | nil =>
    have hlen := length_clockwise (h := h) (l := hr.sortedHashes)
    rw [hcw, length_nil] at hlen
    omega
  | cons p rest => exact ⟨rest, by rw [hget, hcw]; rfl⟩

/-- Every node has a point. -/
theorem firstHash_mem (id : String) :
    hash (virtualKey id 0) ∈ virtualHashes hash hr.virtualNodes id :=
  mem_virtualHashes.mpr ⟨0, hr.virtualNodes_pos, rfl⟩

section

variable (hplaced : Placed hash hr)
include hplaced

theorem Placed.length_pos (hid : id ∈ hr.nodes) : 0 < hr.sortedHashes.length := by
  exact length_pos_of_mem ((hplaced.scattered.mem _).mpr ⟨id, hid, firstHash_mem id⟩)

theorem Placed.getNode (hne : 0 < hr.sortedHashes.length) (key : String) :
    ∃ p, ∃ id ∈ hr.nodes, Nearest {q | q ∈ hr.sortedHashes} (hash key) p ∧
      p ∈ virtualHashes hash hr.virtualNodes id ∧ hr.getNode hash key = .ok id := by
  obtain ⟨rest, hcw⟩ := clockwise_eq_cons (h := hash key) hne
  have hnear := nearest_of_clockwise hplaced.sorted hcw
  obtain ⟨id, hid, hp⟩ := (hplaced.scattered.mem _).mp hnear.mem
  refine ⟨_, id, hid, hnear, hp, ?_⟩
  rw [HashRing.getNode, if_neg hne.ne']
  show Except.ok ((hr.ring.lookup _).getD "") = _
  rw [hplaced.scattered.owner id hid _ hp, Option.getD_some]

theorem getNode_empty (hempty : ∀ id, id ∉ hr.nodes) (key : String) :
    hr.getNode hash key = .error "no nodes available" := by
  have hnil : hr.sortedHashes.length = 0 := by
    rw [length_eq_zero_iff, eq_nil_iff_forall_not_mem]
    intro p hp
    obtain ⟨id, hid, -⟩ := (hplaced.scattered.mem p).mp hp
    exact hempty id hid
  rw [getNode, if_pos hnil]

/-- **Keys stay where they are.** Of two rings, one with more nodes: a key whose owner in the
larger one is also in the smaller one belongs to it there. -/
theorem getNode_of_subset (hplaced' : Placed hash hr')
    (hv : hr'.virtualNodes = hr.virtualNodes) (hsub : ∀ id ∈ hr.nodes, id ∈ hr'.nodes)
    {key owner : String} (howner : hr'.getNode hash key = .ok owner) (hmem : owner ∈ hr.nodes) :
    hr.getNode hash key = .ok owner := by
  have hne := hplaced.length_pos hmem
  obtain ⟨p, id, hid, hnear, hp, hget⟩ := hplaced.getNode hne key
  obtain ⟨p', id', -, hnear', hp', hget'⟩ :=
    hplaced'.getNode (hplaced'.length_pos (hsub owner hmem)) key
  obtain rfl : owner = id' := Except.ok.inj (howner.symm.trans hget')
  -- the nearest point of the larger ring is on the smaller one, and nearest there
  rw [hv] at hp'
  have hpoints : {q | q ∈ hr.sortedHashes} ⊆ {q | q ∈ hr'.sortedHashes} := by
    intro q hq
    obtain ⟨j, hj, hqj⟩ := (hplaced.scattered.mem q).mp hq
    exact (hplaced'.scattered.mem q).mpr ⟨j, hsub j hj, by rwa [hv]⟩
  have hnearest : Nearest {q | q ∈ hr.sortedHashes} (hash key) p' :=
    ⟨(hplaced.scattered.mem p').mpr ⟨owner, hmem, hp'⟩, fun q hq => hnear'.first q (hpoints hq)⟩
  have hsame : p' = p := hnearest.unique hnear
  have hlook := hplaced.scattered.owner owner hmem p' hp'
  rw [hsame, hplaced.scattered.owner id hid p hp] at hlook
  rw [hget, Option.some.inj hlook]

theorem getNode_congr (hplaced' : Placed hash hr')
    (hv : hr'.virtualNodes = hr.virtualNodes) (hsame : ∀ id, id ∈ hr'.nodes ↔ id ∈ hr.nodes)
    (key : String) : hr'.getNode hash key = hr.getNode hash key := by
  by_cases hempty : ∃ id, id ∈ hr'.nodes
  · obtain ⟨first, hfirst⟩ := hempty
    obtain ⟨-, id, hid, -, -, hget⟩ := hplaced'.getNode (hplaced'.length_pos hfirst) key
    rw [hget, getNode_of_subset hplaced hplaced' hv (fun id hid => (hsame id).mpr hid) hget
      ((hsame id).mp hid)]
  · rw [not_exists] at hempty
    rw [getNode_empty hplaced' hempty,
      getNode_empty hplaced fun id hid => hempty id ((hsame id).mpr hid)]

end

theorem not_mem_of_addNode (h : hr.addNode hash node = .ok hr') : node.id ∉ hr.nodes := by
  intro hmem
  rw [addNode, if_pos hmem] at h
  cases h

theorem mem_of_removeNode (h : hr.removeNode nodeID = .ok hr') : nodeID ∈ hr.nodes := by
  by_contra hnot
  rw [removeNode, if_pos hnot] at h
  cases h

theorem removeNode_eq_ok (h : hr.removeNode nodeID = .ok hr') : hr'.nodes = hr.nodes.erase nodeID ∧
      hr'.ring = (dropHashes nodeID hr.ring hr.sortedHashes).1 ∧
      hr'.sortedHashes = (dropHashes nodeID hr.ring hr.sortedHashes).2 := by
  rw [removeNode, if_neg (not_not.mpr (mem_of_removeNode h))] at h
  cases h
  exact ⟨rfl, rfl, rfl⟩

theorem exists_removeNode (h : nodeID ∈ hr.nodes) : ∃ hr', hr.removeNode nodeID = .ok hr' := by
  rw [removeNode, if_neg (not_not.mpr h)]
  exact ⟨_, rfl⟩

/-- Adding a node moves keys to it only. -/
theorem getNode_addNode (hkept : Kept hash nodeIDs v hr) (hfree : NoCollisions hash v nodeIDs)
    (hid : node.id ∈ nodeIDs) (h : hr.addNode hash node = .ok hr') (key : String) :
    hr'.getNode hash key = hr.getNode hash key ∨ hr'.getNode hash key = .ok node.id := by
  obtain rfl := hkept.virtualNodes
  obtain ⟨hplaced', hv, hmem⟩ := hkept.placed.addNode hfree hkept.nodes hid h
  have hthere : node.id ∈ hr'.nodes := (hmem _).mpr (Or.inl rfl)
  obtain ⟨-, owner, howner, -, -, hget⟩ := hplaced'.getNode (hplaced'.length_pos hthere) key
  rcases (hmem owner).mp howner with rfl | hold
  · exact Or.inr hget
  left
  rw [hget, getNode_of_subset hkept.placed hplaced' hv
    (fun id hid => (hmem id).mpr (Or.inr hid)) hget hold]

/-- Removing a node moves only the keys that it owned. -/
theorem getNode_removeNode (hplaced : Placed hash hr) (h : hr.removeNode nodeID = .ok hr')
    (key : String) :
    hr'.getNode hash key = hr.getNode hash key ∨ hr.getNode hash key = .ok nodeID := by
  obtain ⟨hplaced', hv, hmem⟩ := hplaced.removeNode h
  obtain ⟨-, owner, howner, -, -, hget⟩ :=
    hplaced.getNode (hplaced.length_pos (mem_of_removeNode h)) key
  by_cases heq : owner = nodeID
  · exact Or.inr (heq ▸ hget)
  left
  rw [hget, getNode_of_subset hplaced' hplaced hv.symm (fun id hid => ((hmem id).mp hid).2) hget
    ((hmem owner).mpr ⟨heq, howner⟩)]

/-- **Consistent hashing.** After any history of calls: an added node only takes keys, a removed
node only gives its own away, adding and removing a node restores every owner, another history
that ends with the same nodes has the same owners, and so does a clone. -/
theorem consistent_hashing {virtualNodes : Int}
    (hfree : NoCollisions hash (newHashRing virtualNodes).virtualNodes nodeIDs)
    {ops : List RingOp} (hops : ∀ op ∈ ops, op.Within nodeIDs) (key : String) :
    (∀ node hr', node.id ∈ nodeIDs → (ringAfter hash virtualNodes ops).addNode hash node = .ok hr' →
      (hr'.getNode hash key = (ringAfter hash virtualNodes ops).getNode hash key ∨
        hr'.getNode hash key = .ok node.id) ∧ ∃ hr'', hr'.removeNode node.id = .ok hr'' ∧
        hr''.getNode hash key = (ringAfter hash virtualNodes ops).getNode hash key) ∧
    (∀ nodeID hr', (ringAfter hash virtualNodes ops).removeNode nodeID = .ok hr' →
      hr'.getNode hash key = (ringAfter hash virtualNodes ops).getNode hash key ∨
        (ringAfter hash virtualNodes ops).getNode hash key = .ok nodeID) ∧
    (∀ ops' : List RingOp, (∀ op ∈ ops', op.Within nodeIDs) →
      (∀ id, id ∈ (ringAfter hash virtualNodes ops').nodes ↔
        id ∈ (ringAfter hash virtualNodes ops).nodes) →
      (ringAfter hash virtualNodes ops').getNode hash key =
        (ringAfter hash virtualNodes ops).getNode hash key) ∧
    ∀ order, ((ringAfter hash virtualNodes ops).clone hash order).getNode hash key =
      (ringAfter hash virtualNodes ops).getNode hash key := by
  have hkept := kept_ringAfter hfree hops
  refine ⟨fun node hr' hid hadd => ⟨getNode_addNode hkept hfree hid hadd key, ?_⟩,
    fun nodeID hr' hremove => getNode_removeNode hkept.placed hremove key,
    fun ops' hops' hsame => ?_, fun order => ?_⟩
  · have hfree' := hfree
    rw [← hkept.virtualNodes] at hfree'
    obtain ⟨hplaced', hv', hmem'⟩ := hkept.placed.addNode hfree' hkept.nodes hid hadd
    obtain ⟨hr'', hremove⟩ := exists_removeNode ((hmem' node.id).mpr (Or.inl rfl))
    obtain ⟨hplaced'', hv'', hmem''⟩ := hplaced'.removeNode hremove
    refine ⟨hr'', hremove, getNode_congr hkept.placed hplaced'' (hv''.trans hv') (fun id => ?_) key⟩
    rw [hmem'', hmem']
    constructor
    · rintro ⟨hne, rfl | hold⟩
      · exact absurd rfl hne
      · exact hold
    intro hold
    refine ⟨?_, Or.inr hold⟩
    rintro rfl
    exact not_mem_of_addNode hadd hold
  · have hkept' := kept_ringAfter hfree hops'
    exact getNode_congr hkept.placed hkept'.placed
      (hkept'.virtualNodes.trans hkept.virtualNodes.symm) hsame key
  · obtain ⟨hplaced', hv, hnodes⟩ :=
      hkept.placed.clone (by rw [hkept.virtualNodes]; exact hfree) hkept.nodes order
    exact getNode_congr hkept.placed hplaced' hv (fun id => by rw [hnodes]) key

/-! ## Replicas -/

/-- The owners of the points, in the order in which they are met from `h` on. -/
def HashRing.owners (hr : HashRing) (h : UInt64) : List String :=
  (clockwise h hr.sortedHashes).map fun p => (hr.ring.lookup p).getD ""

/-- Is there such a node, and is it active? -/
def HashRing.isActive (hr : HashRing) (nodeID : String) : Bool :=
  decide ((hr.nodes.lookup nodeID).map Node.status = some .active)

theorem Placed.mem_owners (hplaced : Placed hash hr) : id ∈ hr.owners h ↔ id ∈ hr.nodes := by
  rw [owners, mem_map]
  constructor
  · rintro ⟨p, hp, rfl⟩
    obtain ⟨id, hid, hpid⟩ := (hplaced.scattered.mem p).mp (mem_clockwise.mp hp)
    rw [hplaced.scattered.owner id hid p hpid]
    exact hid
  intro hid
  refine ⟨_, mem_clockwise.mpr ((hplaced.scattered.mem _).mpr ⟨id, hid, firstHash_mem id⟩), ?_⟩
  rw [hplaced.scattered.owner id hid _ (firstHash_mem id)]
  rfl

theorem length_owners : (hr.owners h).length = hr.sortedHashes.length := by
  rw [owners, length_map, length_clockwise]

theorem owner_read (hi : i < (hr.owners h).length) : (hr.ring.lookup (hr.sortedHashes.getD
      ((hr.startIndex h + i) % hr.sortedHashes.length) 0)).getD "" = (hr.owners h)[i] := by
  have hlen : i < hr.sortedHashes.length := by rwa [length_owners] at hi
  have hcw : i < (clockwise h hr.sortedHashes).length := by rwa [length_clockwise]
  rw [getD_startIndex hlen, getD_eq_getElem?_getD, getElem?_eq_getElem hcw]
  simp [owners]

/-- What the walk has after `i` turns: nodes of the ring, each once, and every owner it has
passed. -/
structure Walked (hr : HashRing) (h : UInt64) (i : Nat) (uniqueNodes : List String) : Prop where
  nodup : uniqueNodes.Nodup
  known : ∀ id ∈ uniqueNodes, id ∈ hr.nodes
  passed : ∀ id ∈ (hr.owners h).take i, id ∈ uniqueNodes

section Walked

variable {i : Nat} {uniqueNodes : List String}

theorem walked_nil : Walked hr h 0 [] := ⟨nodup_nil, by simp, by simp⟩

section

variable (hw : Walked hr h i uniqueNodes)
include hw

theorem Walked.visit (hplaced : Placed hash hr)
    (hi : i < (hr.owners h).length) (hnew : (hr.owners h)[i] ∉ uniqueNodes) :
    Walked hr h (i + 1) ((hr.owners h)[i] :: uniqueNodes) := by
  refine ⟨nodup_cons.mpr ⟨hnew, hw.nodup⟩, fun id hid => ?_, fun id hid => ?_⟩
  · rcases mem_cons.mp hid with rfl | hid
    · exact hplaced.mem_owners.mp (getElem_mem hi)
    · exact hw.known id hid
  rw [take_succ_eq_append_getElem hi, mem_append, mem_singleton] at hid
  rcases hid with hid | rfl
  · exact mem_cons_of_mem _ (hw.passed id hid)
  · exact mem_cons_self

/-- A walk that has seen fewer nodes than there are has not gone round. -/
theorem Walked.lt_of_unseen (hplaced : Placed hash hr)
    (hmore : uniqueNodes.length < hr.nodes.len) : i < (hr.owners h).length := by
  by_contra hround
  have hall : hr.nodes.keys ⊆ uniqueNodes := fun id hid =>
    hw.passed id (by
      rw [take_of_length_le (not_lt.mp hround)]
      exact hplaced.mem_owners.mpr (mem_keys.mpr hid))
  exact absurd hmore (not_lt.mpr (subperm_of_subset hr.nodes.keys_nodup hall).length_le)

/-- A walk that has seen as many nodes as there are has seen them all. -/
theorem Walked.mem_of_seen_all
    (hall : ¬uniqueNodes.length < hr.nodes.len) (hid : id ∈ hr.nodes) : id ∈ uniqueNodes := by
  have hsub : uniqueNodes.Subperm hr.nodes.keys :=
    subperm_of_subset hw.nodup fun id hid => mem_keys.mp (hw.known id hid)
  exact (hsub.perm_of_length_le (not_lt.mp hall)).mem_iff.mpr (mem_keys.mp hid)

end

end Walked

/-- The loop of `GetNodes` after `i` turns visits the owners from the `i`-th on, and ends before
it has gone round: by then it has seen all nodes. -/
theorem collectNodes_eq (hplaced : Placed hash hr) {count fuel : Nat}
    {uniqueNodes result : List String} (hfuel : (hr.owners h).length < fuel + i)
    (hi : i ≤ (hr.owners h).length) (hw : Walked hr h i uniqueNodes) :
    hr.collectNodes count fuel ((hr.startIndex h + i) % hr.sortedHashes.length) uniqueNodes result =
      some (result ++ ((distinctFrom uniqueNodes ((hr.owners h).drop i)).filter hr.isActive).take
        (count - result.length)) := by
  induction fuel generalizing i uniqueNodes result with
  | zero => omega
  | succ fuel ih =>
    rw [collectNodes]
    by_cases hgo : result.length < count ∧ uniqueNodes.length < hr.nodes.len
    · replace hi := hw.lt_of_unseen hplaced hgo.2
      have hnext : ((hr.startIndex h + i) % hr.sortedHashes.length + 1) % hr.sortedHashes.length =
          (hr.startIndex h + (i + 1)) % hr.sortedHashes.length := by
        rw [Nat.mod_add_mod, Nat.add_assoc]
      rw [if_pos hgo]
      dsimp only
      rw [owner_read hi, hnext, drop_eq_getElem_cons hi, distinctFrom]
      by_cases hold : (hr.owners h)[i] ∈ uniqueNodes
      · rw [if_pos hold, if_pos hold]
        refine ih (by omega) hi ⟨hw.nodup, hw.known, fun id hid => ?_⟩
        rw [take_succ_eq_append_getElem hi, mem_append, mem_singleton] at hid
        rcases hid with hid | rfl
        · exact hw.passed id hid
        · exact hold
      rw [if_neg hold, if_neg hold]
      have hw' := hw.visit hplaced hi hold
      split
      · next hactive =>
        rw [ih (by omega) hi hw', filter_cons_of_pos (by simpa [isActive] using hactive),
          length_append, length_singleton, append_take_cons hgo.1]
      · next hinactive =>
        rw [ih (by omega) hi hw', filter_cons_of_neg (by simpa [isActive] using hinactive)]
    · -- the loop ends: enough nodes are found, or none is left
      rw [if_neg hgo]
      by_cases hcount : result.length < count
      · have hall := fun id (hid : id ∈ (hr.owners h).drop i) =>
          hw.mem_of_seen_all (fun hmore => hgo ⟨hcount, hmore⟩)
            (hplaced.mem_owners.mp (mem_of_mem_drop hid))
        rw [distinctFrom_eq_nil hall, filter_nil, take_nil, append_nil]
      · have hnone : count - result.length = 0 := by omega
        rw [hnone, take_zero, append_nil]

/-- The first `count` active nodes met from `h` on; a count that is not positive is read as 1.
-/
def HashRing.firstActive (hr : HashRing) (h : UInt64) (count : Int) : List String :=
  ((distinctFrom [] (hr.owners h)).filter hr.isActive).take (if count ≤ 0 then 1 else count.toNat)

theorem Placed.firstActive_ne_nil (hplaced : Placed hash hr) (hid : id ∈ hr.nodes)
    (hactive : hr.isActive id = true) (h : UInt64) (count : Int) :
    (hr.firstActive h count).length ≠ 0 := by
  have hmem : id ∈ (distinctFrom [] (hr.owners h)).filter hr.isActive := mem_filter.mpr
      ⟨mem_distinctFrom.mpr ⟨hplaced.mem_owners.mpr hid, not_mem_nil⟩, hactive⟩
  have hpos := length_pos_of_mem hmem
  rw [firstActive, length_take]
  split <;> omega

/-- **Replica selection.** On a placed ring `GetNodes` returns, within one round, the first
active nodes met from the hash of the key on. -/
theorem Placed.getNodes (hplaced : Placed hash hr) {fuel : Nat}
    (hfuel : hr.sortedHashes.length < fuel) (hne : hr.nodes.len ≠ 0) (key : String) {count : Int}
    (hcount : count ≤ maxCapacity) : hr.getNodes hash fuel key count = some
      (if (hr.firstActive (hash key) count).length = 0 then .error "no active nodes available"
        else .ok (hr.firstActive (hash key) count)) := by
  obtain ⟨id, hid⟩ := exists_mem_of_length_pos (Nat.pos_of_ne_zero hne)
  have hlt := startIndex_lt (h := hash key) (hplaced.length_pos (mem_keys.mpr hid))
  have hstart : (hr.startIndex (hash key) + 0) % hr.sortedHashes.length =
      hr.startIndex (hash key) := Nat.mod_eq_of_lt hlt
  have hcapacity : ¬maxCapacity < if count ≤ 0 then 1 else count.toNat := by
    rw [maxCapacity] at hcount ⊢
    split <;> omega
  rw [HashRing.getNodes, if_neg hne]
  dsimp only
  rw [if_neg hcapacity, ← hstart,
    collectNodes_eq hplaced (by rwa [length_owners]) (Nat.zero_le _) walked_nil]
  rfl

end Proofs

/-- A hash that keeps short strings apart: the characters as digits. -/
def spreadHash (s : String) : UInt64 :=
  UInt64.ofNat (s.toList.foldl (fun n c => n * 256 + c.toNat) 0)

/-- Three nodes, added one after the other. -/
def threeNodes : List RingOp :=
  [.addNode ⟨"a", .active⟩, .addNode ⟨"b", .active⟩, .addNode ⟨"c", .active⟩]

/-- The same nodes in another order, with a fourth one in between. -/
def threeNodesLater : List RingOp :=
  [.addNode ⟨"c", .active⟩, .addNode ⟨"d", .failed⟩, .addNode ⟨"a", .active⟩, .removeNode "d",
    .addNode ⟨"b", .active⟩]

theorem consistent_hashing_three : (ringAfter spreadHash 2 threeNodesLater).getNode spreadHash "k" =
      (ringAfter spreadHash 2 threeNodes).getNode spreadHash "k" := by
  have hfree : NoCollisions spreadHash (newHashRing 2).virtualNodes ["a", "b", "c", "d"] := by
    decide +kernel
  have hops : ∀ op ∈ threeNodes, op.Within ["a", "b", "c", "d"] := by decide
  have hops' : ∀ op ∈ threeNodesLater, op.Within ["a", "b", "c", "d"] := by decide
  refine (consistent_hashing hfree hops "k").2.2.1 threeNodesLater hops' fun id => ?_
  exact Perm.mem_iff (by decide)

end DistributedKV.Partitioning
