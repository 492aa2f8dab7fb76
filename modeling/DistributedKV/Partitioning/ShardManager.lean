import DistributedKV.Lib.Tiling
import DistributedKV.Consensus.ClusterManager
import DistributedKV.Partitioning.HashRing

/-!
# Shards (`shard_manager.go`)

Every shard is responsible for an interval of the 64-bit hash space. `SplitShard` cuts an interval
in two and gives the upper part to a new shard, `MergeShards` lets a shard take over the interval
after its own. The intervals should tile the hash space (`Partition`).

Two calls run over an end of a number range: a merge of the last shard with the first one, because
the end of the last interval plus one is the start of the first, and a split when the ids run from
0 to the largest one, because the new id is the largest plus one.
-/

namespace DistributedKV.Partitioning

open AList Function GoMap Option

open Consensus (ClusterManager)

/-- The hashes of a key range. -/
def KeyRange.hashes (range : KeyRange) : Set UInt64 := {h | range.start ≤ h ∧ h ≤ range.stop}

/-- `ShardStatus`. -/
inductive ShardStatus where
  | active
  | initializing
  | rebalancing
  | draining
  | failed
deriving DecidableEq, Repr

/-- The string constant of a status. -/
def ShardStatus.text : ShardStatus → String
  | .active => "active"
  | .initializing => "initializing"
  | .rebalancing => "rebalancing"
  | .draining => "draining"
  | .failed => "failed"

/-- `Shard`, without its time stamps and metadata. -/
structure Shard where
  id : UInt32
  raftGroup : Option ClusterManager
  replicas : List String
  leader : String
  status : ShardStatus
  keyRange : KeyRange

/-- What a split leaves of a shard. -/
def Shard.lowerPart (shard : Shard) (splitHash : UInt64) : Shard :=
  { shard with keyRange := ⟨shard.keyRange.start, splitHash⟩ }

/-- The new shard of a split: the same replicas, but no Raft group and no leader. -/
def Shard.upperPart (shard : Shard) (newShardID : UInt32) (splitHash : UInt64) : Shard where
  id := newShardID
  raftGroup := none
  replicas := shard.replicas
  leader := ""
  status := .initializing
  keyRange := ⟨splitHash + 1, shard.keyRange.stop⟩

/-- The shard that a merge leaves. -/
def Shard.joined (shard1 shard2 : Shard) : Shard :=
  { shard1 with keyRange := ⟨shard1.keyRange.start, shard2.keyRange.stop⟩ }

/-- `ShardManager`. -/
structure ShardManager where
  shards : GoMap UInt32 Shard
  hashRing : HashRing
  nodeID : String

namespace ShardManager

variable (sm : ShardManager)

/-- `sm.shards[shardID] = shard`. -/
def put (shardID : UInt32) (shard : Shard) : ShardManager :=
  { sm with shards := sm.shards.insert shardID shard }

/-- `delete(sm.shards, shardID)`. -/
def delete (shardID : UInt32) : ShardManager :=
  { sm with shards := sm.shards.erase shardID }

/-- `GetShardForKey`: the first shard, in the order of the loop, with the key's node as a
replica and the key's hash. -/
def getShardForKey (hash : String → UInt64) (sm : ShardManager)
    (order : IterationOrder ((_ : UInt32) × Shard)) (key : String) : Except String Shard :=
  match sm.hashRing.getNode hash key with
  | .error err => .error ("failed to find node for key: " ++ err)
  | .ok nodeID =>
    match (order.pick sm.shards.entries).find? fun entry =>
        decide (nodeID ∈ entry.2.replicas) && decide (hash key ≥ entry.2.keyRange.start) &&
          decide (hash key ≤ entry.2.keyRange.stop) with
    | some entry => .ok entry.2
    | none => .error ("no shard found for key " ++ key ++ " (node: " ++ nodeID ++ ")")

/-- `GetShardLeader`: what the Raft group says, or else what is stored. -/
def getShardLeader (order : IterationOrder ((_ : String) × Consensus.RaftNode))
    (shardID : UInt32) : Except String String :=
  match sm.shards.lookup shardID with
  | none => .error ("shard " ++ toString shardID ++ " not found")
  | some shard =>
    match shard.raftGroup with
    | some group =>
      let leader := group.getLeader order
      if leader ≠ "" then .ok leader else .ok shard.leader
    | none => .ok shard.leader

/-- `generateShardID`: one more than the largest id, in 32 bits. -/
def generateShardID : UInt32 :=
  sm.shards.keys.foldl (fun maxID shardID => if shardID > maxID then shardID else maxID) 0 + 1

/-- `SplitShard`. -/
def splitShard (hash : String → UInt64) (sm : ShardManager) (shardID : UInt32)
    (splitKey : String) : ShardManager × Except String UInt32 :=
  match sm.shards.lookup shardID with
  | none => (sm, .error ("shard " ++ toString shardID ++ " not found"))
  | some shard =>
    if shard.status ≠ .active then
      (sm, .error ("cannot split shard " ++ toString shardID ++ ": status is " ++
        shard.status.text))
    else
      let splitHash := hash splitKey
      if splitHash ≤ shard.keyRange.start ∨ splitHash ≥ shard.keyRange.stop then
        (sm, .error ("split key " ++ splitKey ++ " is outside shard " ++ toString shardID ++
          " range"))
      else
        let newShardID := sm.generateShardID
        let sm := sm.put shardID (shard.lowerPart splitHash)
        (sm.put newShardID (shard.upperPart newShardID splitHash), .ok newShardID)

/-- `MergeShards`. With equal ids both names are one shard. -/
def mergeShards (shard1ID shard2ID : UInt32) :
    ShardManager × Except String Unit :=
  match sm.shards.lookup shard1ID, sm.shards.lookup shard2ID with
  | some shard1, some shard2 =>
    if shard1.status ≠ .active ∨ shard2.status ≠ .active then
      (sm, .error "cannot merge non-active shards")
    else if shard1.keyRange.stop + 1 ≠ shard2.keyRange.start then
      (sm, .error ("shards " ++ toString shard1ID ++ " and " ++ toString shard2ID ++
        " are not adjacent"))
    else
      let sm := sm.put shard1ID (shard1.joined shard2)
      (sm.delete shard2ID, .ok ())
  | _, _ => (sm, .error "one or both shards not found")

/-- The hashes a shard id is responsible for; none if there is no such shard. -/
def cell (shardID : UInt32) : Set UInt64 :=
  {h | ∃ shard, sm.shards.lookup shardID = some shard ∧ h ∈ shard.keyRange.hashes}

/-- **The invariant of the shards**: non-empty intervals that tile the hash space. -/
structure Partition (sm : ShardManager) : Prop where
  nonempty : ∀ shardID shard, sm.shards.lookup shardID = some shard →
    shard.keyRange.start ≤ shard.keyRange.stop
  tiling : Tiling sm.cell

/-- The two calls. -/
inductive Call where
  | split (shardID : UInt32) (splitKey : String)
  | merge (shard1ID shard2ID : UInt32)

/-- What is asked of a call. -/
def Sound (hash : String → UInt64) (sm : ShardManager) : Call → Prop
  | .split shardID splitKey =>
    let out := sm.splitShard hash shardID splitKey
    out.1.Partition ∧
      (∀ newShardID, out.2 = .ok newShardID → newShardID ∉ sm.shards ∧
        ∀ id, id ∈ out.1.shards ↔ id = newShardID ∨ id ∈ sm.shards) ∧
      (∀ err, out.2 = .error err → out.1 = sm)
  | .merge shard1ID shard2ID =>
    let out := sm.mergeShards shard1ID shard2ID
    out.1.Partition ∧ ∀ err, out.2 = .error err → out.1 = sm

/-- The shard is active and the split key falls strictly inside its interval. -/
def Splits (hash : String → UInt64) (sm : ShardManager) (shardID : UInt32) (splitKey : String) :
    Prop :=
  ∃ shard, sm.shards.lookup shardID = some shard ∧ shard.status = .active ∧
    shard.keyRange.start < hash splitKey ∧ hash splitKey < shard.keyRange.stop

/-- The call does not run over an end: no split with the ids 0 and the largest one in use, no
merge of an active shard that ends at the last hash with one that starts at the first. -/
def WithinEnds (hash : String → UInt64) (sm : ShardManager) : Call → Prop
  | .split shardID splitKey =>
    sm.Splits hash shardID splitKey → ¬(4294967295 ∈ sm.shards ∧ 0 ∈ sm.shards)
  | .merge shard1ID shard2ID =>
    ∀ shard1 shard2, sm.shards.lookup shard1ID = some shard1 →
      sm.shards.lookup shard2ID = some shard2 → shard1.status = .active →
      shard2.status = .active →
      ¬(shard1.keyRange.stop = 18446744073709551615 ∧ shard2.keyRange.start = 0)

variable {hash : String → UInt64} {sm : ShardManager} {shardID shard1ID shard2ID : UInt32}
  {splitKey : String} {shard shard1 shard2 : Shard}

/-! ## New ids -/

theorem foldl_max (ids : List UInt32) (m : UInt32) :
    let maxID := ids.foldl (fun maxID id => if id > maxID then id else maxID) m
    (∀ id ∈ ids, id ≤ maxID) ∧ m ≤ maxID ∧ (maxID = m ∨ maxID ∈ ids) := by
  induction ids generalizing m with
  | nil => simp
  | cons first ids ih =>
    obtain ⟨hall, hm, hin⟩ := ih (if first > m then first else m)
    grind

/-- The new id is in use exactly when all of the id range is spanned. -/
theorem generateShardID_mem :
    sm.generateShardID ∈ sm.shards ↔ 4294967295 ∈ sm.shards ∧ 0 ∈ sm.shards := by
  obtain ⟨hall, hm, hin⟩ := foldl_max sm.shards.keys 0
  rw [mem_keys, mem_keys, mem_keys, generateShardID]
  grind

/-! ## Cells -/

theorem cell_eq (h : sm.shards.lookup shardID = some shard) :
    sm.cell shardID = shard.keyRange.hashes := by
  ext p
  constructor
  · rintro ⟨other, hother, hp⟩
    obtain rfl := some.inj (h.symm.trans hother)
    exact hp
  · intro hp
    exact ⟨shard, h, hp⟩

theorem cell_empty (h : shardID ∉ sm.shards) : sm.cell shardID = ∅ := by
  rw [Set.eq_empty_iff_forall_notMem]
  rintro p ⟨shard, hshard, -⟩
  exact h (mem_of_lookup hshard)

theorem cell_put (sm : ShardManager) (shardID : UInt32) (shard : Shard) :
    (sm.put shardID shard).cell = Function.update sm.cell shardID shard.keyRange.hashes := by
  funext id
  by_cases hid : id = shardID
  · subst hid
    rw [update_self]
    exact cell_eq (lookup_insert _)
  rw [update_of_ne hid]
  ext p
  simp only [cell, put, Set.mem_ofPred_eq, lookup_insert_ne hid]

theorem cell_delete (sm : ShardManager) (shardID : UInt32) :
    (sm.delete shardID).cell = Function.update sm.cell shardID ∅ := by
  funext id
  by_cases hid : id = shardID
  · subst hid
    rw [update_self]
    refine cell_empty fun hmem => ?_
    exact (mem_erase.mp hmem).1 rfl
  · rw [update_of_ne hid]
    ext p
    simp only [cell, delete, Set.mem_ofPred_eq, lookup_erase_ne hid]

/-! ## Split -/

/-- A split fails without effect, or cuts the interval of an active shard. -/
theorem splitShard_cases (hash : String → UInt64) (sm : ShardManager) (shardID : UInt32)
    (splitKey : String) : (¬sm.Splits hash shardID splitKey ∧
      ∃ err, sm.splitShard hash shardID splitKey = (sm, .error err)) ∨
    ∃ shard, sm.shards.lookup shardID = some shard ∧ shard.status = .active ∧
      shard.keyRange.start < hash splitKey ∧ hash splitKey < shard.keyRange.stop ∧
      sm.splitShard hash shardID splitKey =
        ((sm.put shardID (shard.lowerPart (hash splitKey))).put sm.generateShardID
          (shard.upperPart sm.generateShardID (hash splitKey)), .ok sm.generateShardID) := by
  cases hlook : sm.shards.lookup shardID with
  | none =>
    left
    constructor
    · rintro ⟨shard, h, -⟩
      simp [hlook] at h
    · exact ⟨_, by rw [splitShard, hlook]⟩
  | some shard =>
    have hsplits : sm.Splits hash shardID splitKey ↔ shard.status = .active ∧
        shard.keyRange.start < hash splitKey ∧ hash splitKey < shard.keyRange.stop := by
      rw [Splits, hlook]
      simp
    by_cases hstatus : shard.status = .active
    · by_cases hin : hash splitKey ≤ shard.keyRange.start ∨ hash splitKey ≥ shard.keyRange.stop
      · left
        constructor
        · rw [hsplits]
          rintro ⟨-, hlow, hhigh⟩
          exact hin.elim (not_le.mpr hlow) (not_le.mpr hhigh)
        rw [splitShard, hlook]
        dsimp only
        rw [if_neg (not_not.mpr hstatus), if_pos hin]
        exact ⟨_, rfl⟩
      · right
        obtain ⟨hlow, hhigh⟩ := not_or.mp hin
        refine ⟨shard, rfl, hstatus, not_le.mp hlow, not_le.mp hhigh, ?_⟩
        rw [splitShard, hlook]
        dsimp only
        rw [if_neg (not_not.mpr hstatus), if_neg hin]
    · left
      constructor
      · rw [hsplits]
        exact fun h => hstatus h.1
      rw [splitShard, hlook]
      dsimp only
      rw [if_pos hstatus]
      exact ⟨_, rfl⟩

/-- The two parts of an interval that is cut strictly inside. -/
theorem hashes_split {k : UInt64} (hlow : shard.keyRange.start < k)
    (hhigh : k < shard.keyRange.stop) (newID : UInt32) (p : UInt64) :
    (p ∈ shard.keyRange.hashes ↔ p ∈ (shard.lowerPart k).keyRange.hashes ∨
      p ∈ (shard.upperPart newID k).keyRange.hashes) ∧
    (p ∈ (shard.lowerPart k).keyRange.hashes → p ∉ (shard.upperPart newID k).keyRange.hashes) := by
  simp only [KeyRange.hashes, Shard.lowerPart, Shard.upperPart, Set.mem_ofPred_eq]
  constructor <;> grind

theorem nonempty_put (hall : ∀ id other, sm.shards.lookup id = some other →
      other.keyRange.start ≤ other.keyRange.stop)
    (hshard : shard.keyRange.start ≤ shard.keyRange.stop) (id : UInt32) (other : Shard)
    (hother : (sm.put shardID shard).shards.lookup id = some other) :
    other.keyRange.start ≤ other.keyRange.stop := by
  rcases lookup_insert_eq_some.mp hother with ⟨rfl, rfl⟩ | ⟨-, hother⟩
  · exact hshard
  · exact hall id other hother

/-- A split whose new id is free leaves a partition. -/
theorem Partition.split (hpart : sm.Partition) (hlook : sm.shards.lookup shardID = some shard)
    {k : UInt64} (hlow : shard.keyRange.start < k) (hhigh : k < shard.keyRange.stop)
    {newID : UInt32} (hnew : newID ∉ sm.shards) :
    ((sm.put shardID (shard.lowerPart k)).put newID (shard.upperPart newID k)).Partition := by
  constructor
  · refine nonempty_put (nonempty_put hpart.nonempty hlow.le) ?_
    show k + 1 ≤ shard.keyRange.stop
    grind
  have hne : shardID ≠ newID := by
    rintro rfl
    exact hnew (mem_of_lookup hlook)
  rw [cell_put, cell_put]
  refine hpart.tiling.split hne (cell_empty hnew) (fun p => ?_) fun p => ?_
  · rw [cell_eq hlook]
    exact (hashes_split hlow hhigh newID p).1
  · exact (hashes_split hlow hhigh newID p).2

theorem split_sound_iff (hpart : sm.Partition) (shardID : UInt32) (splitKey : String) :
    sm.Sound hash (.split shardID splitKey) ↔ sm.WithinEnds hash (.split shardID splitKey) := by
  rw [Sound, WithinEnds, ← generateShardID_mem]
  rcases splitShard_cases hash sm shardID splitKey with
    ⟨hnot, err, heq⟩ | ⟨shard, hlook, hstatus, hlow, hhigh, heq⟩
  · rw [heq]
    exact iff_of_true ⟨hpart, by simp, by simp⟩ fun h => absurd h hnot
  rw [heq]
  constructor
  · rintro ⟨-, hadds, -⟩ - hmem
    exact (hadds _ rfl).1 hmem
  intro hends
  have hnew := hends ⟨shard, hlook, hstatus, hlow, hhigh⟩
  refine ⟨hpart.split hlook hlow hhigh hnew, ?_, by simp⟩
  rintro newID hok
  cases hok
  refine ⟨hnew, fun id => ?_⟩
  show id ∈ ((sm.shards.insert shardID _).insert sm.generateShardID _) ↔ _
  rw [mem_insert, mem_insert, or_congr_right]
  rw [or_iff_right_iff_imp]
  rintro rfl
  exact mem_of_lookup hlook

/-! ## Merge -/

/-- A merge fails without effect, or joins two active shards adjacent in 64-bit arithmetic. -/
theorem mergeShards_cases (sm : ShardManager) (shard1ID shard2ID : UInt32) :
    (∃ err, sm.mergeShards shard1ID shard2ID = (sm, .error err)) ∧
      (∀ shard1 shard2, sm.shards.lookup shard1ID = some shard1 →
        sm.shards.lookup shard2ID = some shard2 → shard1.status = .active →
        shard2.status = .active → shard1.keyRange.stop + 1 ≠ shard2.keyRange.start) ∨
    ∃ shard1 shard2, sm.shards.lookup shard1ID = some shard1 ∧
      sm.shards.lookup shard2ID = some shard2 ∧ shard1.status = .active ∧
      shard2.status = .active ∧ shard1.keyRange.stop + 1 = shard2.keyRange.start ∧
      sm.mergeShards shard1ID shard2ID =
        ((sm.put shard1ID (shard1.joined shard2)).delete shard2ID, .ok ()) := by
  rw [mergeShards]
  split
  · next shard1 shard2 hlook1 hlook2 =>
    split
    · next hstatus =>
      refine Or.inl ⟨⟨_, rfl⟩, fun s1 s2 h1 h2 ha1 ha2 => ?_⟩
      obtain rfl := some.inj (hlook1.symm.trans h1)
      obtain rfl := some.inj (hlook2.symm.trans h2)
      exact absurd hstatus (by simp [ha1, ha2])
    · next hstatus =>
      obtain ⟨ha1, ha2⟩ := not_or.mp hstatus
      split
      · next hfar =>
        refine Or.inl ⟨⟨_, rfl⟩, fun s1 s2 h1 h2 _ _ => ?_⟩
        obtain rfl := some.inj (hlook1.symm.trans h1)
        obtain rfl := some.inj (hlook2.symm.trans h2)
        exact hfar
      · next hadjacent =>
        exact Or.inr ⟨shard1, shard2, hlook1, hlook2, not_not.mp ha1, not_not.mp ha2,
          not_not.mp hadjacent, rfl⟩
  · next hnone =>
    exact Or.inl ⟨⟨_, rfl⟩, fun s1 s2 h1 h2 => absurd h2 (hnone s1 s2 h1)⟩

section

variable (hpart : sm.Partition) (hlook1 : sm.shards.lookup shard1ID = some shard1)
  (hlook2 : sm.shards.lookup shard2ID = some shard2)
include hpart hlook1 hlook2

/-- A merge of neighbours inside the hash space leaves a partition. -/
theorem Partition.merge (hnext : shard1.keyRange.stop + 1 = shard2.keyRange.start)
    (hinside : shard1.keyRange.stop ≠ 18446744073709551615) :
    ((sm.put shard1ID (shard1.joined shard2)).delete shard2ID).Partition := by
  have hne1 := hpart.nonempty _ _ hlook1
  have hne2 := hpart.nonempty _ _ hlook2
  have hne : shard1ID ≠ shard2ID := by
    rintro rfl
    obtain rfl := some.inj (hlook1.symm.trans hlook2)
    grind
  constructor
  · intro id other hother
    refine nonempty_put hpart.nonempty ?_ id other (lookup_erase_eq_some.mp hother).2
    show shard1.keyRange.start ≤ shard2.keyRange.stop
    grind
  rw [cell_delete, cell_put]
  refine hpart.tiling.merge hne fun p => ?_
  rw [cell_eq hlook1, cell_eq hlook2]
  simp only [KeyRange.hashes, Shard.joined, Set.mem_ofPred_eq]
  grind

theorem Partition.not_merge (hstart : shard2.keyRange.start = 0) :
    ¬((sm.put shard1ID (shard1.joined shard2)).delete shard2ID).Partition := by
  intro hpart'
  have hmem1 : shard1.keyRange.start ∈ sm.cell shard1ID := by
    rw [cell_eq hlook1]
    exact ⟨le_rfl, hpart.nonempty _ _ hlook1⟩
  by_cases hne : shard1ID = shard2ID
  · -- the only shard merged with itself: nobody is responsible for its hashes
    subst hne
    obtain ⟨id, hid, -⟩ := hpart'.tiling shard1.keyRange.start
    rw [cell_delete, cell_put] at hid
    by_cases heq : id = shard1ID
    · subst heq
      rw [update_self] at hid
      exact hid
    · rw [update_of_ne heq, update_of_ne heq] at hid
      exact heq (hpart.tiling.eq hid hmem1)
  -- the joined interval would start at or before the end of the first shard
  have hlook : ((sm.put shard1ID (shard1.joined shard2)).delete shard2ID).shards.lookup shard1ID =
      some (shard1.joined shard2) := by
    rw [delete, lookup_erase_ne hne, put, lookup_insert]
  have hle : shard1.keyRange.start ≤ shard2.keyRange.stop := hpart'.nonempty _ _ hlook
  have hmem2 : shard1.keyRange.start ∈ sm.cell shard2ID := by
    rw [cell_eq hlook2]
    refine ⟨?_, hle⟩
    grind
  exact hne (hpart.tiling.eq hmem1 hmem2)

end

theorem merge_sound_iff (hpart : sm.Partition) (shard1ID shard2ID : UInt32) :
    sm.Sound hash (.merge shard1ID shard2ID) ↔ sm.WithinEnds hash (.merge shard1ID shard2ID) := by
  rw [Sound, WithinEnds]
  rcases mergeShards_cases sm shard1ID shard2ID with
    ⟨⟨err, heq⟩, hfar⟩ | ⟨shard1, shard2, hlook1, hlook2, ha1, ha2, hnext, heq⟩
  · rw [heq]
    refine iff_of_true ⟨hpart, by simp⟩ ?_
    rintro s1 s2 h1 h2 hs1 hs2 ⟨hstop, hstart⟩
    have := hfar s1 s2 h1 h2 hs1 hs2
    rw [hstop, hstart] at this
    exact this (by decide)
  rw [heq]
  constructor
  · rintro ⟨hpart', -⟩ s1 s2 h1 h2 - - ⟨-, hstart⟩
    obtain rfl := some.inj (hlook1.symm.trans h1)
    obtain rfl := some.inj (hlook2.symm.trans h2)
    exact hpart.not_merge hlook1 hlook2 hstart hpart'
  intro hends
  refine ⟨hpart.merge hlook1 hlook2 hnext fun hstop => ?_, by simp⟩
  refine hends shard1 shard2 hlook1 hlook2 ha1 ha2 ⟨hstop, ?_⟩
  rw [← hnext, hstop]
  decide

/-- **Shard ranges stay a partition.** On shards that partition the hash space, a split or merge
leaves a partition, a split adds exactly one shard, and a failing call changes nothing, exactly
when the call stays within the ends of the id range and of the hash space. -/
theorem split_merge_iff (hpart : sm.Partition) (call : Call) :
    sm.Sound hash call ↔ sm.WithinEnds hash call := by
  cases call with
  | split shardID splitKey => exact split_sound_iff hpart shardID splitKey
  | merge shard1ID shard2ID => exact merge_sound_iff hpart shard1ID shard2ID

/-- Two active shards, one for each half of the hash space. -/
def twoHalves (lowID highID : UInt32) : ShardManager where
  shards := ((∅ : GoMap UInt32 Shard).insert lowID
    ⟨lowID, none, ["n"], "n", .active, ⟨0, 9223372036854775807⟩⟩).insert highID
    ⟨highID, none, ["n"], "n", .active, ⟨9223372036854775808, 18446744073709551615⟩⟩
  hashRing := newHashRing 1
  nodeID := "n"

theorem partition_twoHalves {lowID highID : UInt32} (hne : lowID ≠ highID) :
    (twoHalves lowID highID).Partition := by
  have hlow : (twoHalves lowID highID).shards.lookup lowID =
      some ⟨lowID, none, ["n"], "n", .active, ⟨0, 9223372036854775807⟩⟩ := by
    rw [twoHalves, lookup_insert_ne hne, lookup_insert]
  have hhigh : (twoHalves lowID highID).shards.lookup highID = some
      ⟨highID, none, ["n"], "n", .active, ⟨9223372036854775808, 18446744073709551615⟩⟩ := by
    rw [twoHalves, lookup_insert]
  have hids : ∀ id, id ∈ (twoHalves lowID highID).shards → id = highID ∨ id = lowID := by
    intro id hid
    rw [twoHalves, mem_insert, mem_insert] at hid
    simpa using hid
  constructor
  · intro id shard hshard
    rcases hids id (mem_of_lookup hshard) with rfl | rfl
    · obtain rfl := some.inj (hhigh.symm.trans hshard)
      dsimp only
      decide
    obtain rfl := some.inj (hlow.symm.trans hshard)
    dsimp only
    decide
  intro p
  have hlowCell : p ∈ (twoHalves lowID highID).cell lowID ↔ p ≤ 9223372036854775807 := by
    rw [cell_eq hlow, KeyRange.hashes, Set.mem_ofPred_eq]
    grind
  have hhighCell : p ∈ (twoHalves lowID highID).cell highID ↔ 9223372036854775808 ≤ p := by
    rw [cell_eq hhigh, KeyRange.hashes, Set.mem_ofPred_eq]
    grind
  have honly : ∀ id, p ∈ (twoHalves lowID highID).cell id → id = highID ∨ id = lowID :=
    fun id ⟨_, hlook, _⟩ => hids id (mem_of_lookup hlook)
  by_cases hp : p ≤ 9223372036854775807
  · refine ⟨lowID, hlowCell.mpr hp, fun id hid => ?_⟩
    rcases honly id hid with rfl | rfl
    · rw [hhighCell] at hid
      grind
    · rfl
  · refine ⟨highID, hhighCell.mpr (by grind), fun id hid => ?_⟩
    rcases honly id hid with rfl | rfl
    · rfl
    · exact absurd (hlowCell.mp hid) hp

/-- Splitting the lower half, and merging it with the upper one. -/
theorem split_merge_twoHalves : (twoHalves 1 2).Sound (fun _ => 50) (.split 1 "k") ∧
      (twoHalves 1 2).Sound (fun _ => 50) (.merge 1 2) := by
  constructor
  · exact (split_merge_iff (partition_twoHalves (by decide)) _).mpr fun _ => by decide
  refine (split_merge_iff (partition_twoHalves (by decide)) _).mpr ?_
  intro shard1 shard2 hlook1 hlook2 _ _ ⟨hstop, _⟩
  obtain rfl := some.inj ((show (twoHalves 1 2).shards.lookup 1 = some _ from rfl).symm.trans
    hlook1)
  exact absurd hstop (by decide)

/-- Merging the upper half with the lower one leaves one shard with an empty interval; splitting
the lower half while the ids 0 and 4294967295 are in use gives the id 0 again and drops the
hashes below the split. -/
theorem wrapped_ends_counterexample : ((twoHalves 1 2).Partition ∧
      ((twoHalves 1 2).mergeShards 2 1).2.isOk = true ∧
      ((twoHalves 1 2).mergeShards 2 1).1.shards.keys = [2] ∧
      (((twoHalves 1 2).mergeShards 2 1).1.shards.lookup 2).map Shard.keyRange =
        some ⟨9223372036854775808, 9223372036854775807⟩ ∧
      ¬(twoHalves 1 2).Sound (fun _ => 50) (.merge 2 1)) ∧ (twoHalves 0 4294967295).Partition ∧
      ((twoHalves 0 4294967295).splitShard (fun _ => 50) 0 "k").2 = .ok 0 ∧
      (((twoHalves 0 4294967295).splitShard (fun _ => 50) 0 "k").1.shards.lookup 0).map
        Shard.keyRange = some ⟨51, 9223372036854775807⟩ ∧
      ¬(twoHalves 0 4294967295).Sound (fun _ => 50) (.split 0 "k") := by
  refine ⟨⟨partition_twoHalves (by decide), rfl, rfl, rfl, ?_⟩, partition_twoHalves (by decide),
    rfl, rfl, ?_⟩
  · rintro ⟨hpart, -⟩
    exact absurd (hpart.nonempty 2 _ rfl) (by decide)
  · rintro ⟨-, hadds, -⟩
    exact (hadds 0 rfl).1 (by decide)

end ShardManager

end DistributedKV.Partitioning
