import DistributedKV.Partitioning.HashRing

/-!
# Who owns a hash

Two descriptions of ownership besides `GetNode`: the replicas that `GetNodes` selects for a key,
which `FirstMet` describes by the points of the nodes alone, and the ranges of hashes that
`GetHashRange` reports for a node. The range of a single point ends there and does not wrap around.

The memory of the model is unbounded: the capacity for `count` nodes that `GetNodes` asks for in
advance does not appear.
-/

namespace DistributedKV.Partitioning

open List

/-! ## Replicas -/

section Replicas

variable {hash : String → UInt64} {hr : HashRing} {nodeIDs : List String} {id : String} {h : UInt64}

open HashRing

end Replicas

/-! ## Ranges -/

/-- The hashes from `start` to `stop`, round the circle if `start` is the larger one. -/
def KeyRange.covers (range : KeyRange) (h : UInt64) : Bool :=
  if range.start ≤ range.stop then decide (range.start ≤ h) && decide (h ≤ range.stop)
  else decide (range.start ≤ h) || decide (h ≤ range.stop)

namespace HashRing

variable (hr : HashRing)

/-- Where the range of the `i`-th hash starts. -/
def rangeStart (i : Nat) (prevHash : UInt64) : UInt64 :=
  if i = 0 then
    if hr.sortedHashes.length > 1 then hr.sortedHashes.getD (hr.sortedHashes.length - 1) 0 + 1
    else 0
  else prevHash + 1

/-- The loop of `GetHashRange`. -/
def collectRanges (hr : HashRing) (nodeID : String) : Nat → UInt64 → List UInt64 → List KeyRange
  | _, _, [] => []
  | i, prevHash, p :: rest =>
    if (hr.ring.lookup p).getD "" = nodeID then
      ⟨hr.rangeStart i prevHash, p⟩ :: hr.collectRanges nodeID (i + 1) p rest
    else hr.collectRanges nodeID (i + 1) p rest

/-- `GetHashRange`. -/
def getHashRange (nodeID : String) : Except String (List KeyRange) :=
  if nodeID ∉ hr.nodes then .error ("node " ++ nodeID ++ " not found")
  else .ok (hr.collectRanges nodeID 0 0 hr.sortedHashes)

/-- The ranges that `GetHashRange` returns over all nodes, each with its node. -/
def hashRanges : List (String × KeyRange) :=
  hr.nodes.keys.flatMap fun id =>
    ((hr.getHashRange id).toOption.getD []).map fun range => (id, range)

/-- The ranges of all points, of whichever node. -/
def arcs (hr : HashRing) : Nat → UInt64 → List UInt64 → List KeyRange
  | _, _, [] => []
  | i, prevHash, p :: rest => ⟨hr.rangeStart i prevHash, p⟩ :: hr.arcs (i + 1) p rest

end HashRing

/-- Every hash is in exactly one range, one of the node that `GetNode` returns for a key with
this hash. -/
def RangesOwn (hash : String → UInt64) (hr : HashRing) : Prop :=
  ∀ h, ∃ owner, hr.hashRanges.filter (fun entry => entry.2.covers h) = [owner] ∧
    ∀ key, hash key = h → hr.getNode hash key = .ok owner.1

section Ranges

variable {hash : String → UInt64} {hr : HashRing} {nodeIDs : List String} {nodeID : String}
  {h p : UInt64} {i : Nat} {prevHash : UInt64} {l : List UInt64} {range : KeyRange}

theorem perm_flatMap_filter {α β : Type*} [DecidableEq β] {f : α → β} {labels : List β}
    {l : List α} (hlabels : labels.Nodup) (hl : ∀ a ∈ l, f a ∈ labels) :
    (labels.flatMap fun b => l.filter fun a => f a = b).Perm l := by
  induction labels generalizing l with
  | nil =>
    have hnil : l = [] := eq_nil_iff_forall_not_mem.mpr fun a ha => by simpa using hl a ha
    rw [hnil]
    exact List.Perm.refl []
  | cons b labels ih =>
    obtain ⟨hb, hrest⟩ := nodup_cons.mp hlabels
    -- the elements with other labels, and for those `b` makes no difference
    have hothers := ih (l := l.filter fun a => !decide (f a = b)) hrest fun a ha => by
      rw [mem_filter] at ha
      exact (mem_cons.mp (hl a ha.1)).resolve_left (by simpa using ha.2)
    have hsame : ∀ c ∈ labels, (l.filter fun a => !decide (f a = b)).filter (fun a => f a = c) =
        l.filter fun a => f a = c := by
      intro c hc
      rw [filter_filter]
      refine filter_congr fun a _ => ?_
      by_cases hac : f a = c
      · have hcb : c ≠ b := by
          rintro rfl
          exact hb hc
        simp [hac, hcb]
      · simp [hac]
    rw [flatMap_congr hsame] at hothers
    exact (hothers.append_left _).trans (filter_append_perm _ l)

/-- Of elements with distinct labels one is singled out by its label. -/
theorem filter_eq_singleton {α β : Type*} {f : α → β} {l : List α} (hnodup : (l.map f).Nodup)
    {a : α} (ha : a ∈ l) {test : α → Bool} (htest : ∀ b ∈ l, test b = true ↔ f b = f a) :
    l.filter test = [a] := by
  rw [← perm_singleton, perm_ext_iff_of_nodup (hnodup.of_map.filter _) (nodup_singleton a)]
  intro b
  rw [mem_filter, mem_singleton]
  constructor
  · rintro ⟨hb, hlabel⟩
    exact inj_on_of_nodup_map hnodup hb ha ((htest b hb).mp hlabel)
  · rintro rfl
    exact ⟨ha, (htest b ha).mpr rfl⟩

/-! ### The ranges of the points -/

theorem collectRanges_eq : hr.collectRanges nodeID i prevHash l =
    (hr.arcs i prevHash l).filter fun range => (hr.ring.lookup range.stop).getD "" = nodeID := by
  induction l generalizing i prevHash with
  | nil => rfl
  | cons p rest ih =>
    rw [HashRing.collectRanges, HashRing.arcs]
    split_ifs with howner
    · rw [filter_cons_of_pos (by simpa using howner), ih]
    · rw [filter_cons_of_neg (by simpa using howner), ih]

open KeyRange

theorem map_stop_arcs : (hr.arcs i prevHash l).map stop = l := by
  induction l generalizing i prevHash with
  | nil => rfl
  | cons p rest ih => rw [HashRing.arcs, map_cons, ih]

theorem mem_arcs (hmem : range ∈ hr.arcs i prevHash l) :
    ∃ before after, l = before ++ range.stop :: after ∧
      range.start = hr.rangeStart (i + before.length) (before.getLastD prevHash) := by
  induction l generalizing i prevHash with
  | nil => cases hmem
  | cons p rest ih =>
    rw [HashRing.arcs, mem_cons] at hmem
    rcases hmem with rfl | hmem
    · exact ⟨[], rest, rfl, rfl⟩
    obtain ⟨before, after, hrest, hstart⟩ := ih hmem
    refine ⟨p :: before, after, by rw [hrest, cons_append], ?_⟩
    rw [hstart, length_cons, getLastD_cons, Nat.add_right_comm, Nat.add_assoc]

/-- With two points, or the largest hash as the only one, the range of a point has the hashes it
is nearest to. -/
theorem covers_iff (hsorted : hr.sortedHashes.Pairwise (· < ·))
    (hpoints : 2 ≤ hr.sortedHashes.length ∨ hr.sortedHashes = [18446744073709551615])
    (hmem : range ∈ hr.arcs 0 0 hr.sortedHashes) :
    range.covers h = true ↔ Nearest {q | q ∈ hr.sortedHashes} h range.stop := by
  obtain ⟨before, after, hl, hstart⟩ := mem_arcs hmem
  obtain ⟨start, p⟩ := range
  dsimp only at hl hstart ⊢
  rcases eq_nil_or_concat' before with rfl | ⟨before, last, rfl⟩
  · rw [nil_append] at hl
    rw [hl] at hsorted ⊢
    rw [nearest_smallest_iff hsorted]
    rcases eq_nil_or_concat' after with rfl | ⟨after, last, rfl⟩
    · -- the only point
      have hmax : p = 18446744073709551615 := by
        rw [hl] at hpoints
        simpa using hpoints
      have hzero : start = 0 := by
        rw [hstart, HashRing.rangeStart, hl]
        rfl
      subst hmax hzero
      rw [covers, if_pos (by decide), Bool.and_eq_true, decide_eq_true_iff, decide_eq_true_iff]
      grind
    have hlast : start = last + 1 := by
      rw [hstart, HashRing.rangeStart, hl]
      simp
    have hlt : ∀ q ∈ after ++ [last], p < q := (pairwise_cons.mp hsorted).1
    have habove : ∀ q ∈ after ++ [last], q ≤ last := by
      intro q hq
      rcases mem_append.mp hq with hq | hq
      · exact ((pairwise_append.mp (pairwise_cons.mp hsorted).2).2.2 q hq last
          (mem_singleton_self last)).le
      · exact (mem_singleton.mp hq).le
    -- the range of the first point starts behind the last one, or at 0 if that is the largest hash
    have hfirst : (⟨last + 1, p⟩ : KeyRange).covers h = true ↔ h ≤ p ∨ last < h := by
      have := hlt last (by simp)
      rw [covers]
      by_cases hwrap : last + 1 ≤ p <;> grind
    rw [hlast, hfirst]
    refine or_congr_right ⟨fun hh q hq => ?_, fun hh => hh last (by simp)⟩
    rcases mem_cons.mp hq with rfl | hq
    · exact (hlt last (by simp)).trans hh
    · exact (habove q hq).trans_lt hh
  · rw [append_assoc, singleton_append] at hl
    rw [hl] at hsorted ⊢
    have hlast : start = last + 1 := by
      rw [hstart, HashRing.rangeStart]
      simp
    have hlt : last < p := (pairwise_cons.mp (pairwise_append.mp hsorted).2.1).1 p mem_cons_self
    have hle : last + 1 ≤ p := by grind
    rw [hlast, nearest_next_iff hsorted, covers, if_pos hle, Bool.and_eq_true, decide_eq_true_iff,
      decide_eq_true_iff]
    grind

/-- The ranges of the nodes are those of the points, each with the owner of its point. -/
theorem Placed.hashRanges_perm (hplaced : Placed hash hr) :
    hr.hashRanges.Perm ((hr.arcs 0 0 hr.sortedHashes).map fun range =>
      ((hr.ring.lookup range.stop).getD "", range)) := by
  have hgroups : hr.hashRanges = hr.nodes.keys.flatMap fun id =>
      ((hr.arcs 0 0 hr.sortedHashes).map fun range =>
        ((hr.ring.lookup range.stop).getD "", range)).filter fun entry => entry.1 = id := by
    refine flatMap_congr fun id hid => ?_
    rw [HashRing.getHashRange, if_neg (not_not.mpr (AList.mem_keys.mpr hid)), filter_map,
      collectRanges_eq]
    refine map_congr_left fun range (hrange : range ∈ List.filter _ _) => ?_
    rw [mem_filter, decide_eq_true_iff] at hrange
    rw [hrange.2]
  rw [hgroups]
  refine perm_flatMap_filter hr.nodes.keys_nodup fun entry hentry => ?_
  obtain ⟨range, hrange, rfl⟩ := mem_map.mp hentry
  have hstops : (hr.arcs 0 0 hr.sortedHashes).map stop = hr.sortedHashes := map_stop_arcs
  have hstop : range.stop ∈ hr.sortedHashes := by
    rw [← hstops]
    exact mem_map_of_mem hrange
  obtain ⟨id, hid, hp⟩ := (hplaced.scattered.mem _).mp hstop
  rw [hplaced.scattered.owner id hid _ hp, Option.getD_some]
  exact AList.mem_keys.mp hid

theorem Placed.rangesOwn (hplaced : Placed hash hr)
    (hpoints : 2 ≤ hr.sortedHashes.length ∨ hr.sortedHashes = [18446744073709551615]) :
    RangesOwn hash hr := by
  have hne : 0 < hr.sortedHashes.length := by
    rcases hpoints with hlen | honly
    · omega
    · rw [honly]
      decide
  intro h
  obtain ⟨rest, hcw⟩ := clockwise_eq_cons (h := h) hne
  have hnear := nearest_of_clockwise hplaced.sorted hcw
  have hstops : (hr.arcs 0 0 hr.sortedHashes).map stop = hr.sortedHashes := map_stop_arcs
  obtain ⟨range, hrange, hstop⟩ : ∃ range ∈ hr.arcs 0 0 hr.sortedHashes,
      range.stop = hr.sortedHashes.getD (hr.startIndex h) 0 := by
    rw [← mem_map, hstops]
    exact hnear.mem
  have honly : (hr.arcs 0 0 hr.sortedHashes).filter (fun range => range.covers h) = [range] := by
    refine filter_eq_singleton (f := stop) ?_ hrange fun other hother => ?_
    · rw [hstops]
      exact hplaced.scattered.nodup
    rw [covers_iff hplaced.sorted hpoints hother, hstop]
    constructor
    · exact fun hother => hother.unique hnear
    rintro heq
    rw [heq]
    exact hnear
  refine ⟨((hr.ring.lookup range.stop).getD "", range), ?_, ?_⟩
  · rw [← perm_singleton]
    refine (hplaced.hashRanges_perm.filter _).trans (Perm.of_eq ?_)
    rw [filter_map]
    exact congrArg (List.map _) honly
  · rintro key rfl
    rw [HashRing.getNode, if_neg hne.ne', hstop]

/-- **Ranges and owners.** On the ring after any history without collisions, the ranges of
`GetHashRange` describe the owners of all hashes exactly if the ring has at least two points, or
one at the largest hash. -/
theorem ranges_own_iff {virtualNodes : Int}
    (hfree : NoCollisions hash (newHashRing virtualNodes).virtualNodes nodeIDs)
    {ops : List RingOp} (hops : ∀ op ∈ ops, op.Within nodeIDs) :
    RangesOwn hash (ringAfter hash virtualNodes ops) ↔
      2 ≤ (ringAfter hash virtualNodes ops).sortedHashes.length ∨
        (ringAfter hash virtualNodes ops).sortedHashes = [18446744073709551615] := by
  have hplaced := (kept_ringAfter hfree hops).placed
  generalize ringAfter hash virtualNodes ops = hr at hplaced
  refine ⟨fun hown => ?_, hplaced.rangesOwn⟩
  -- the largest hash is in a range, which no ring with fewer points has unless it ends there
  obtain ⟨owner, hfilter, -⟩ := hown 18446744073709551615
  have hmem : owner ∈ hr.hashRanges ∧ owner.2.covers 18446744073709551615 = true :=
    mem_filter.mp (hfilter ▸ mem_singleton_self owner)
  obtain ⟨range, hrange, rfl⟩ := mem_map.mp (hplaced.hashRanges_perm.mem_iff.mp hmem.1)
  rcases hl : hr.sortedHashes with - | ⟨p, - | ⟨q, rest⟩⟩
  · rw [hl] at hrange
    cases hrange
  · right
    have hsingle : range = ⟨0, p⟩ := by
      rw [hl, HashRing.arcs, HashRing.rangeStart, hl] at hrange
      exact mem_singleton.mp hrange
    have hcovers : (⟨0, p⟩ : KeyRange).covers 18446744073709551615 = true := hsingle ▸ hmem.2
    rw [covers, if_pos (by grind), Bool.and_eq_true, decide_eq_true_iff,
      decide_eq_true_iff] at hcovers
    have hmax : p = 18446744073709551615 := by grind
    rw [hmax]
  · left
    simp

end Ranges

theorem ranges_own_threeNodes : RangesOwn spreadHash (ringAfter spreadHash 2 threeNodes) := by
  have hfree : NoCollisions spreadHash (newHashRing 2).virtualNodes ["a", "b", "c"] := by
    decide +kernel
  have hops : ∀ op ∈ threeNodes, op.Within ["a", "b", "c"] := by decide
  exact (ranges_own_iff hfree hops).mpr (Or.inl (by decide +kernel))

/-- One node with one point, the hash of `a:0`: its only range is from 0 to there, and the
largest hash, which is its own as well, is in no range. -/
theorem single_range_counterexample : NoCollisions spreadHash (newHashRing 1).virtualNodes ["a"] ∧
      (ringAfter spreadHash 1 [.addNode ⟨"a", .active⟩]).getHashRange "a" =
        .ok [⟨0, spreadHash "a:0"⟩] ∧
      (ringAfter spreadHash 1 [.addNode ⟨"a", .active⟩]).hashRanges.filter
        (fun entry => entry.2.covers 18446744073709551615) = [] ∧
      ¬RangesOwn spreadHash (ringAfter spreadHash 1 [.addNode ⟨"a", .active⟩]) := by
  have hnone : (ringAfter spreadHash 1 [.addNode ⟨"a", .active⟩]).hashRanges.filter
      (fun entry => entry.2.covers 18446744073709551615) = [] := by decide +kernel
  refine ⟨by decide +kernel, by decide +kernel, hnone, fun hown => ?_⟩
  obtain ⟨owner, hfilter, -⟩ := hown 18446744073709551615
  rw [hnone] at hfilter
  cases hfilter

end DistributedKV.Partitioning
