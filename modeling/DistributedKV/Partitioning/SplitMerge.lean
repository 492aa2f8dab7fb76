import DistributedKV.Partitioning.ShardManager

/-!
# Splitting a shard and merging it again

A split leaves the upper part of a shard to a new one that is still initializing, and a merge only
takes active shards. So the two are inverse to each other once the new shard is active, and until
then the merge is refused.

`GetShardForKey` needs a shard with the hash of the key in its interval and the node of the key
among its replicas. A merged shard has both intervals, but the replicas of the first shard only.
-/

namespace DistributedKV.Partitioning.ShardManager

open AList Option

variable {hash : String → UInt64} {sm sm' : ShardManager} {shardID shard1ID shard2ID newID : UInt32}
  {splitKey key : String} {shard shard1 shard2 : Shard}

/-! ## Which keys find a shard -/

/-- The shard has the node of the key as a replica and the hash of the key in its interval. -/
def Serves (hash : String → UInt64) (sm : ShardManager) (key : String) (shard : Shard) : Prop :=
  ∃ nodeID ∈ shard.replicas, sm.hashRing.getNode hash key = .ok nodeID ∧
    hash key ∈ shard.keyRange.hashes

/-- Whatever the order of the loop, a key finds a shard if there is one that serves it. -/
theorem getShardForKey_isOk (order : IterationOrder ((_ : UInt32) × Shard)) :
    (∃ shard, sm.getShardForKey hash order key = .ok shard) ↔
      ∃ id shard, sm.shards.lookup id = some shard ∧ sm.Serves hash key shard := by
  rw [getShardForKey]
  cases hnode : sm.hashRing.getNode hash key with
  | error err =>
    refine iff_of_false (by simp) ?_
    rintro ⟨id, shard, -, nodeID, -, hget, -⟩
    rw [hnode] at hget
    cases hget
  | ok nodeID =>
    have htest : ∀ shard : Shard, (decide (nodeID ∈ shard.replicas) &&
        decide (hash key ≥ shard.keyRange.start) &&
          decide (hash key ≤ shard.keyRange.stop)) = true ↔ sm.Serves hash key shard := by
      intro shard
      simp [Serves, hnode, KeyRange.hashes, and_assoc]
    dsimp only
    split
    · next entry hfind =>
      have hserves := List.find?_some hfind
      refine iff_of_true ⟨_, rfl⟩ ⟨entry.1, entry.2, ?_, (htest entry.2).mp hserves⟩
      exact mem_lookup_iff.mpr (order.mem_pick _ |>.mp (List.mem_of_find?_eq_some hfind))
    next hnone =>
      refine iff_of_false (by simp) ?_
      rintro ⟨id, shard, hlook, hserves⟩
      have hentry : (⟨id, shard⟩ : (_ : UInt32) × Shard) ∈ order.pick sm.shards.entries :=
      order.mem_pick _ |>.mpr (mem_lookup_iff.mp hlook)
      exact List.find?_eq_none.mp hnone _ hentry ((htest shard).mpr hserves)

/-- A merge of neighbours keeps the keys served, except those of the second whose node is no
replica of the first. -/
theorem Partition.served_of_merge (hpart : sm.Partition)
    (hlook1 : sm.shards.lookup shard1ID = some shard1)
    (hlook2 : sm.shards.lookup shard2ID = some shard2)
    (hinside : shard1.keyRange.stop < shard2.keyRange.start)
    (hserved : ∃ id shard, sm.shards.lookup id = some shard ∧ sm.Serves hash key shard)
    (hnode : sm.Serves hash key shard2 → ∃ nodeID ∈ shard1.replicas,
      sm.hashRing.getNode hash key = .ok nodeID) :
    ∃ id shard, ((sm.put shard1ID (shard1.joined shard2)).delete shard2ID).shards.lookup id =
      some shard ∧ sm.Serves hash key shard := by
  have hne1 := hpart.nonempty _ _ hlook1
  have hne2 := hpart.nonempty _ _ hlook2
  have hids : shard1ID ≠ shard2ID := by
    rintro rfl
    obtain rfl := some.inj (hlook1.symm.trans hlook2)
    exact absurd hinside (not_lt.mpr hne2)
  have hjoined : ((sm.put shard1ID (shard1.joined shard2)).delete shard2ID).shards.lookup shard1ID =
      some (shard1.joined shard2) := by
    rw [delete, lookup_erase_ne hids, put, lookup_insert]
  obtain ⟨id, shard, hlook, nodeID, hreplica, hget, hrange⟩ := hserved
  by_cases hid1 : id = shard1ID
  · -- the interval of the first shard only grows
    subst hid1
    obtain rfl := some.inj (hlook1.symm.trans hlook)
    refine ⟨id, _, hjoined, nodeID, hreplica, hget, hrange.1, ?_⟩
    exact hrange.2.trans (hinside.le.trans hne2)
  by_cases hid2 : id = shard2ID
  · subst hid2
    obtain rfl := some.inj (hlook2.symm.trans hlook)
    obtain ⟨nodeID', hreplica', hget'⟩ := hnode ⟨nodeID, hreplica, hget, hrange⟩
    refine ⟨shard1ID, _, hjoined, nodeID', hreplica', hget', ?_, hrange.2⟩
    exact hne1.trans (hinside.le.trans hrange.1)
  · refine ⟨id, shard, ?_, nodeID, hreplica, hget, hrange⟩
    rw [delete, lookup_erase_ne hid2, put, lookup_insert_ne hid1]
    exact hlook

/-! ## A split and the merge after it -/

/-- The new shard of a split, once it is active. Only `CreateShard` makes a shard active in the
source: for the shard of a split this is an assumption. -/
def activated (sm : ShardManager) (shardID : UInt32) : ShardManager :=
  { sm with shards := GoMap.modify sm.shards shardID fun shard => { shard with status := .active } }

theorem splitShard_eq_ok (h : sm.splitShard hash shardID splitKey = (sm', .ok newID)) :
    ∃ shard, sm.shards.lookup shardID = some shard ∧ shard.status = .active ∧
      sm' = (sm.put shardID (shard.lowerPart (hash splitKey))).put newID
        (shard.upperPart newID (hash splitKey)) := by
  rcases splitShard_cases hash sm shardID splitKey with
    ⟨-, err, heq⟩ | ⟨shard, hlook, hstatus, -, -, heq⟩
  · rw [heq] at h
    cases h
  rw [heq] at h
  obtain ⟨rfl, hok⟩ := Prod.mk.inj h
  cases hok
  exact ⟨shard, hlook, hstatus, rfl⟩

/-- Right after a split the merge is refused: the new shard is not active yet. -/
theorem mergeShards_splitShard (h : sm.splitShard hash shardID splitKey = (sm', .ok newID)) :
    sm'.mergeShards shardID newID = (sm', .error "cannot merge non-active shards") := by
  obtain ⟨shard, hlook, hstatus, rfl⟩ := splitShard_eq_ok h
  have hinactive : (shard.upperPart newID (hash splitKey)).status ≠ .active := by
    show ShardStatus.initializing ≠ .active
    decide
  generalize shard.lowerPart (hash splitKey) = lower, shard.upperPart newID (hash splitKey) = upper
    at hinactive
  have hnew : ((sm.put shardID lower).put newID upper).shards.lookup newID = some upper :=
    lookup_insert _
  -- the id of the split shard may be the new one itself, if the ids have run out
  obtain ⟨lower', hlower⟩ :
      ∃ lower', ((sm.put shardID lower).put newID upper).shards.lookup shardID = some lower' := by
    by_cases hid : shardID = newID
    · rw [hid] at hnew ⊢
      exact ⟨_, hnew⟩
    refine ⟨lower, ?_⟩
    show ((sm.shards.insert shardID _).insert newID _).lookup shardID = _
    rw [lookup_insert_ne hid, lookup_insert]
  rw [mergeShards, hlower, hnew]
  exact if_pos (Or.inr hinactive)

theorem lookup_activated (sm : ShardManager) (shardID newID : UInt32) (lower upper : Shard)
    (id : UInt32) : (((sm.put shardID lower).put newID upper).activated newID).shards.lookup id =
      if id = newID then some { upper with status := .active }
      else if id = shardID then some lower else sm.shards.lookup id := by
  show (GoMap.modify ((sm.shards.insert shardID lower).insert newID upper) newID _).lookup id = _
  rw [GoMap.lookup_modify, GoMap.lookup_insert_ite, GoMap.lookup_insert_ite]
  split_ifs <;> rfl

/-- When the new shard is active, the merge gives back what the split took. -/
theorem mergeShards_activated (h : sm.splitShard hash shardID splitKey = (sm', .ok newID))
    (hnew : newID ∉ sm.shards) :
    ∃ sm'', (sm'.activated newID).mergeShards shardID newID = (sm'', .ok ()) ∧
      ∀ id, sm''.shards.lookup id = sm.shards.lookup id := by
  obtain ⟨shard, hlook, hstatus, rfl⟩ := splitShard_eq_ok h
  have hid : shardID ≠ newID := by
    rintro rfl
    exact hnew (GoMap.mem_of_lookup hlook)
  have hlookup := lookup_activated sm shardID newID (shard.lowerPart (hash splitKey))
    (shard.upperPart newID (hash splitKey))
  generalize ((sm.put shardID (shard.lowerPart (hash splitKey))).put newID
    (shard.upperPart newID (hash splitKey))).activated newID = between at hlookup
  generalize hlower : shard.lowerPart (hash splitKey) = lower at hlookup
  generalize hupper : { shard.upperPart newID (hash splitKey) with status := .active } = upper
    at hlookup
  have hshard : lower.joined upper = shard := by
    subst hlower hupper
    rfl
  have hactive : ¬(lower.status ≠ .active ∨ upper.status ≠ .active) := by
    subst hlower hupper
    simp [Shard.lowerPart, hstatus]
  have hnext : ¬lower.keyRange.stop + 1 ≠ upper.keyRange.start := by
    subst hlower hupper
    exact not_not.mpr rfl
  refine ⟨(between.put shardID (lower.joined upper)).delete newID, ?_, fun id => ?_⟩
  · rw [mergeShards, hlookup, hlookup, if_neg hid, if_pos rfl, if_pos rfl]
    dsimp only
    rw [if_neg hactive, if_neg hnext]
  rw [hshard]
  by_cases hgone : id = newID
  · subst hgone
    rw [delete, lookup_erase]
    exact (lookup_eq_none.mpr hnew).symm
  rw [delete, lookup_erase_ne hgone]
  by_cases hold : id = shardID
  · subst hold
    rw [put, lookup_insert, hlook]
  · rw [put, lookup_insert_ne hold, hlookup, if_neg hgone, if_neg hold]

/-- **Split and merge.** On shards that partition the hash space: a merge right after a split is
refused and changes nothing, and if the new shard has become active (and its id was a new one)
the merge restores all shards; after a merge of neighbours, every key that found a shard still
finds one, unless it was the second of the two and the node of the key is no replica of the
first. -/
theorem split_then_merge (hpart : sm.Partition) :
    (∀ shardID splitKey newID sm', sm.splitShard hash shardID splitKey = (sm', .ok newID) →
      sm'.mergeShards shardID newID = (sm', .error "cannot merge non-active shards") ∧
      (newID ∉ sm.shards → ∃ sm'',
        (sm'.activated newID).mergeShards shardID newID = (sm'', .ok ()) ∧
          ∀ id, sm''.shards.lookup id = sm.shards.lookup id)) ∧
    ∀ shard1ID shard2ID shard1 shard2 sm', sm.shards.lookup shard1ID = some shard1 →
      sm.shards.lookup shard2ID = some shard2 → sm.mergeShards shard1ID shard2ID = (sm', .ok ()) →
      shard1.keyRange.stop < shard2.keyRange.start →
      ∀ key order shard, sm.getShardForKey hash order key = .ok shard →
        (sm.Serves hash key shard2 → ∃ nodeID ∈ shard1.replicas,
          sm.hashRing.getNode hash key = .ok nodeID) →
        ∀ order', ∃ shard', sm'.getShardForKey hash order' key = .ok shard' := by
  constructor
  · intro shardID splitKey newID sm' hsplit
    exact ⟨mergeShards_splitShard hsplit, mergeShards_activated hsplit⟩
  intro shard1ID shard2ID shard1 shard2 sm' hlook1 hlook2 hmerge hinside key order shard hfound
    hnode order'
  have hserved := (getShardForKey_isOk order).mp ⟨shard, hfound⟩
  rcases mergeShards_cases sm shard1ID shard2ID with
    ⟨⟨err, heq⟩, -⟩ | ⟨s1, s2, hs1, hs2, -, -, -, heq⟩
  · rw [heq] at hmerge
    cases hmerge
  obtain rfl := some.inj (hlook1.symm.trans hs1)
  obtain rfl := some.inj (hlook2.symm.trans hs2)
  rw [heq] at hmerge
  obtain ⟨rfl, -⟩ := Prod.mk.inj hmerge
  exact (getShardForKey_isOk order').mpr (hpart.served_of_merge hlook1 hlook2 hinside hserved hnode)

/-- The hash of `k` is in the upper half, all others are 50. -/
def upperHash (s : String) : UInt64 := if s = "k" then 9223372036854775808 else 50

/-- Two halves on one node, and a ring with that node. -/
def sameHalves : ShardManager :=
  { twoHalves 1 2 with hashRing := ringAfter upperHash 1 [.addNode ⟨"n", .active⟩] }

/-- Splitting the lower half gives the shard 3, which can be merged once it is active. After a
merge of the two halves `k` still finds a shard. -/
theorem split_then_merge_sameHalves : ∃ sm' sm'',
    sameHalves.splitShard upperHash 1 "j" = (sm', .ok 3) ∧
    sm'.mergeShards 1 3 = (sm', .error "cannot merge non-active shards") ∧
    (sm'.activated 3).mergeShards 1 3 = (sm'', .ok ()) ∧
    (∀ id, sm''.shards.lookup id = sameHalves.shards.lookup id) ∧
    ∀ order, ∃ shard, (sameHalves.mergeShards 1 2).1.getShardForKey upperHash order "k" =
      .ok shard := by
  have hhalves : (twoHalves 1 2).Partition := partition_twoHalves (by decide)
  obtain ⟨hsplits, hmerges⟩ :=
    @split_then_merge upperHash sameHalves ⟨hhalves.nonempty, hhalves.tiling⟩
  obtain ⟨hrefused, hrestored⟩ := hsplits 1 "j" 3 _ rfl
  obtain ⟨sm'', hmerge, hsame⟩ := hrestored (by decide)
  exact ⟨_, sm'', rfl, hrefused, hmerge, hsame, hmerges 1 2 _ _ _ rfl rfl rfl (by decide) "k"
    .asGiven _ rfl fun _ => ⟨"n", by decide, rfl⟩⟩

theorem Partition.congr (hpart : sm.Partition)
    (h : ∀ id, (sm'.shards.lookup id).map Shard.keyRange =
      (sm.shards.lookup id).map Shard.keyRange) : sm'.Partition := by
  have hsame : ∀ {id shard'}, sm'.shards.lookup id = some shard' →
      ∃ shard, sm.shards.lookup id = some shard ∧ shard.keyRange = shard'.keyRange := by
    intro id shard' hlook
    refine map_eq_some_iff.mp ?_
    rw [← h, hlook, map_some]
  have hcell : sm'.cell = sm.cell := by
    funext id
    ext p
    have hid := h id
    constructor
    · rintro ⟨shard', hlook, hp⟩
      obtain ⟨shard, hshard, hrange⟩ := hsame hlook
      exact ⟨shard, hshard, hrange ▸ hp⟩
    rintro ⟨shard, hlook, hp⟩
    rw [hlook, map_some] at hid
    obtain ⟨shard', hshard', hrange⟩ := map_eq_some_iff.mp hid
    exact ⟨shard', hshard', hrange ▸ hp⟩
  constructor
  · intro id shard' hlook
    obtain ⟨shard, hshard, hrange⟩ := hsame hlook
    rw [← hrange]
    exact hpart.nonempty id shard hshard
  · rw [hcell]
    exact hpart.tiling

/-- Two halves on different nodes, and a ring with the node of the upper one. -/
def apartHalves : ShardManager where
  shards := GoMap.modify (GoMap.modify (twoHalves 1 2).shards 1 fun shard =>
    { shard with replicas := ["a"] }) 2 fun shard => { shard with replicas := ["b"] }
  hashRing := ringAfter upperHash 1 [.addNode ⟨"b", .active⟩]
  nodeID := "a"

theorem partition_apartHalves : apartHalves.Partition := by
  refine (partition_twoHalves (show (1 : UInt32) ≠ 2 by decide)).congr fun id => ?_
  show ((GoMap.modify (GoMap.modify (twoHalves 1 2).shards 1 _) 2 _).lookup id).map _ = _
  rw [GoMap.lookup_modify, GoMap.lookup_modify]
  split <;> split <;> simp [Function.comp_def]

/-- A merge right after a split fails; and a merge of halves on different nodes succeeds, after
which a key of the upper half finds no shard. -/
theorem split_merge_counterexample : ((twoHalves 1 2).Partition ∧
      (twoHalves 1 2).shards.entries.map (fun e => e.2.status) = [.active, .active] ∧
      ((twoHalves 1 2).splitShard (fun _ => 50) 1 "k").2 = .ok 3 ∧
      (((twoHalves 1 2).splitShard (fun _ => 50) 1 "k").1.mergeShards 1 3).2 =
        .error "cannot merge non-active shards") ∧ apartHalves.Partition ∧
      apartHalves.shards.entries.map (fun e => e.2.status) = [.active, .active] ∧
      (apartHalves.mergeShards 1 2).2.isOk = true ∧
      (apartHalves.getShardForKey upperHash .asGiven "k").isOk = true ∧
      ((apartHalves.mergeShards 1 2).1.getShardForKey upperHash .asGiven "k").isOk = false := by
  refine ⟨⟨partition_twoHalves (by decide), rfl, rfl, rfl⟩, partition_apartHalves, ?_, ?_, ?_, ?_⟩
  all_goals decide +kernel

end DistributedKV.Partitioning.ShardManager
