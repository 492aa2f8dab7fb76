import Mathlib.Data.String.Basic
import DistributedKV.Lib.GoMap
import DistributedKV.Consensus.NodeSpec

/-!
# The safety validator (`safety.go`)

`SafetyValidator` inspects the nodes of a test cluster. Its maps are visited in any order, so each
theorem is about every order of every loop.

1. `ValidateLogMatching` compares index and term only: it does not see two entries of one index and
   term that differ in type or data.
2. `ValidateCommitSafety` records committed entries by index, `ValidateLeaderCompleteness` reads the
   keys of that map as terms, and of several leaders of one term it looks at the last.
-/

namespace DistributedKV.Consensus

open AList List Option

/-! ## Log matching -/

/-- The numbers of a "log matching violation": the position whose index and term agree, these two,
and the position before it that differs. -/
structure LogMatchingViolation where
  nodeID1 : String
  nodeID2 : String
  i : Nat
  index : Int
  term : Int
  j : Nat

/-- The same index and the same term. -/
def SameEntry (e : LogEntry × LogEntry) : Prop :=
  e.1.index = e.2.index ∧ e.1.term = e.2.term

instance (e : LogEntry × LogEntry) : Decidable (SameEntry e) :=
  inferInstanceAs (Decidable (_ ∧ _))

/-- `validateLogPairMatching`. The two loops stay below `minLen`, where both logs have entries. -/
def validateLogPairMatching (nodeID1 : String) (log1 : List LogEntry) (nodeID2 : String)
    (log2 : List LogEntry) : Option LogMatchingViolation :=
  let entries := log1.zip log2
  entries.zipIdx.findSome? fun (e, i) =>
    if SameEntry e then
      ((entries.take (i + 1)).findIdx? fun e => ¬SameEntry e).map fun j =>
        ⟨nodeID1, nodeID2, i, e.1.index, e.1.term, j⟩
    else none

/-- A log with the id of its node. -/
abbrev NodeLog := (_ : String) × List LogEntry

/-- The map `allEntries` of `ValidateLogMatching`. -/
def allEntries (nodes : List RaftNode) : GoMap String (List LogEntry) :=
  GoMap.putAll ∅ (nodes.map fun node => (node.id, node.log))

/-- `ValidateLogMatching`. Each round of the outer loop visits the map in an order of its own. -/
def validateLogMatching (outer : IterationOrder NodeLog) (inner : String → IterationOrder NodeLog)
    (nodes : List RaftNode) : Option LogMatchingViolation :=
  (outer.pick (allEntries nodes).entries).findSome? fun a =>
    ((inner a.1).pick (allEntries nodes).entries).findSome? fun b =>
      if a.1 ≥ b.1 then none  -- avoid duplicate comparisons
      else validateLogPairMatching a.1 a.2 b.1 b.2

/-- Two logs hold an entry of one index and term, and at an index up to it entries that `differ`. -/
def Breaks (differ : LogEntry → LogEntry → Prop) (log log' : List LogEntry) : Prop :=
  ∃ e ∈ log, ∃ e' ∈ log', e.index = e'.index ∧ e.term = e'.term ∧
    ∃ f ∈ log, ∃ f' ∈ log', f.index = f'.index ∧ f.index ≤ e.index ∧ differ f f'

/-- Two nodes of which that holds. -/
def SomePair (nodes : List RaftNode) (bad : List LogEntry → List LogEntry → Prop) : Prop :=
  ∃ a ∈ nodes, ∃ b ∈ nodes, a.id ≠ b.id ∧ bad a.log b.log

/-- Entries that differ in index, term, type or data. -/
def Differ (e e' : LogEntry) : Prop :=
  e.index ≠ e'.index ∨ e.term ≠ e'.term ∨ e.type ≠ e'.type ∨ e.data ≠ e'.data

/-- Entries that differ in term, which is what the validator looks for. -/
def OtherTerm (e e' : LogEntry) : Prop := e.term ≠ e'.term

/-- Two entries of one index and term that differ in type or data. -/
def Forged (log log' : List LogEntry) : Prop :=
  ∃ e ∈ log, ∃ e' ∈ log', e.index = e'.index ∧ e.term = e'.term ∧
    (e.type ≠ e'.type ∨ e.data ≠ e'.data)

instance (e e' : LogEntry) : Decidable (Differ e e') :=
  inferInstanceAs (Decidable (_ ∨ _))

instance (e e' : LogEntry) : Decidable (OtherTerm e e') :=
  inferInstanceAs (Decidable (¬_))

instance (log log' : List LogEntry) : Decidable (Forged log log') :=
  inferInstanceAs (Decidable (∃ e ∈ _, _))

instance (differ : LogEntry → LogEntry → Prop) [DecidableRel differ] (log log' : List LogEntry) :
    Decidable (Breaks differ log log') :=
  inferInstanceAs (Decidable (∃ e ∈ _, _))

instance (nodes : List RaftNode) (bad : List LogEntry → List LogEntry → Prop) [DecidableRel bad] :
    Decidable (SomePair nodes bad) :=
  inferInstanceAs (Decidable (∃ a ∈ _, _))

section Pairs

variable {log log' : List LogEntry} (h : Numbered log) (h' : Numbered log')
include h

theorem Numbered.getElem?_iff {k : Nat} {e : LogEntry} :
    log[k]? = some e ↔ e ∈ log ∧ e.index = (k : Int) + 1 := by
  constructor
  · intro hk
    exact ⟨mem_of_getElem? hk, h k e hk⟩
  · rintro ⟨he, hindex⟩
    obtain ⟨m, hm⟩ := getElem?_of_mem he
    have := h m e hm
    obtain rfl : m = k := by omega
    exact hm

include h'

theorem isSome_validateLogPairMatching (a b : String) :
    (validateLogPairMatching a log b log').isSome ↔ Breaks OtherTerm log log' := by
  have hzip : ∀ (k : Nat) e, (log.zip log')[k]? = some e ↔
      (e.1 ∈ log ∧ e.1.index = (k : Int) + 1) ∧ e.2 ∈ log' ∧ e.2.index = (k : Int) + 1 := by
    intro k e
    rw [getElem?_zip_eq_some, h.getElem?_iff, h'.getElem?_iff]
  unfold validateLogPairMatching
  rw [findSome?_isSome_iff]
  constructor
  · rintro ⟨⟨e, i⟩, hmem, hsome⟩
    rw [mem_zipIdx_iff_getElem?, hzip] at hmem
    dsimp only at hmem hsome
    split at hsome
    · next hsame =>
      rw [isSome_map, findIdx?_isSome, List.any_eq_true] at hsome
      obtain ⟨f, hf, hdiff⟩ := hsome
      obtain ⟨j, hj⟩ := getElem?_of_mem hf
      have hlt : j < i + 1 :=
        (List.getElem?_eq_some_iff.mp hj).1.trans_le (length_take_le _ _)
      rw [getElem?_take_of_lt hlt, hzip] at hj
      refine ⟨e.1, hmem.1.1, e.2, hmem.2.1, hsame.1, hsame.2, f.1, hj.1.1, f.2, hj.2.1,
        hj.1.2.trans hj.2.2.symm, by omega, fun hterm => ?_⟩
      exact of_decide_eq_true hdiff ⟨hj.1.2.trans hj.2.2.symm, hterm⟩
    · cases hsome
  · rintro ⟨e, he, e', he', hindex, hterm, f, hf, f', hf', hfindex, hle, hdiff⟩
    obtain ⟨i, hi⟩ := getElem?_of_mem he
    obtain ⟨j, hj⟩ := getElem?_of_mem hf
    have hei := h i e hi
    have hfj := h j f hj
    refine ⟨((e, e'), i), ?_, ?_⟩
    · rw [mem_zipIdx_iff_getElem?, hzip]
      exact ⟨⟨he, hei⟩, he', by rw [← hindex, hei]⟩
    · dsimp only
      rw [if_pos ⟨hindex, hterm⟩, isSome_map, findIdx?_isSome, List.any_eq_true]
      refine ⟨(f, f'), mem_of_getElem? (i := j) ?_, decide_eq_true fun hsame => hdiff hsame.2⟩
      rw [getElem?_take_of_lt (by omega), hzip]
      exact ⟨⟨hf, hfj⟩, hf', by rw [← hfindex, hfj]⟩

end Pairs

theorem Breaks.symm {differ : LogEntry → LogEntry → Prop}
    (hsymm : ∀ e e', differ e e' → differ e' e) {log log' : List LogEntry}
    (h : Breaks differ log log') : Breaks differ log' log := by
  obtain ⟨e, he, e', he', hindex, hterm, f, hf, f', hf', hfindex, hle, hdiff⟩ := h
  exact ⟨e', he', e, he, hindex.symm, hterm.symm, f', hf', f, hf, hfindex.symm, by omega,
    hsymm f f' hdiff⟩

variable {nodes : List RaftNode}

theorem mem_allEntries (hids : (nodes.map RaftNode.id).Nodup) {e : NodeLog} :
    e ∈ (allEntries nodes).entries ↔ ∃ node ∈ nodes, e = ⟨node.id, node.log⟩ := by
  have hnodup : ((nodes.map fun node => (node.id, node.log)).map Prod.fst).Nodup := by
    rwa [List.map_map]
  obtain ⟨id, log⟩ := e
  rw [← mem_lookup_iff, Option.mem_def]
  constructor
  · intro hlog
    by_cases hmem : id ∈ (nodes.map fun node => (node.id, node.log)).map Prod.fst
    · rw [List.map_map, List.mem_map] at hmem
      obtain ⟨node, hnode, rfl⟩ := hmem
      have hown := GoMap.lookup_putAll (m := ∅) hnodup (mem_map_of_mem hnode)
      cases hown.symm.trans hlog
      exact ⟨node, hnode, rfl⟩
    · cases (GoMap.lookup_putAll_of_notMem hmem).symm.trans hlog
  · rintro ⟨node, hnode, heq⟩
    cases heq
    exact GoMap.lookup_putAll hnodup (mem_map_of_mem hnode)

/-- **What the validator finds**: two logs that agree in term at an index and not at one before. -/
theorem isSome_validateLogMatching (outer : IterationOrder NodeLog)
    (inner : String → IterationOrder NodeLog) (hids : (nodes.map RaftNode.id).Nodup)
    (hnumbered : ∀ node ∈ nodes, Numbered node.log) :
    (validateLogMatching outer inner nodes).isSome ↔
      SomePair nodes (Breaks OtherTerm) := by
  simp only [validateLogMatching, findSome?_isSome_iff, IterationOrder.mem_pick,
    mem_allEntries hids]
  constructor
  · rintro ⟨_, ⟨a, ha, rfl⟩, _, ⟨b, hb, rfl⟩, hsome⟩
    split at hsome
    · cases hsome
    · next hlt =>
      rw [isSome_validateLogPairMatching (hnumbered a ha) (hnumbered b hb)] at hsome
      exact ⟨a, ha, b, hb, (not_le.mp hlt).ne, hsome⟩
  · rintro ⟨a, ha, b, hb, hne, hbreaks⟩
    -- the smaller id comes first
    wlog hlt : a.id < b.id generalizing a b
    · exact this b hb a ha hne.symm (hbreaks.symm fun _ _ h => h.symm)
        (lt_of_le_of_ne (not_lt.mp hlt) hne.symm)
    refine ⟨_, ⟨a, ha, rfl⟩, _, ⟨b, hb, rfl⟩, ?_⟩
    rw [if_neg (not_le.mpr hlt), isSome_validateLogPairMatching (hnumbered a ha) (hnumbered b hb)]
    exact hbreaks

theorem breaks_differ_iff {log log' : List LogEntry} :
    Breaks Differ log log' ↔ Breaks OtherTerm log log' ∨ Forged log log' := by
  constructor
  · rintro ⟨e, he, e', he', hindex, hterm, f, hf, f', hf', hfindex, hle, hdiff⟩
    by_cases hfterm : f.term = f'.term
    · refine .inr ⟨f, hf, f', hf', hfindex, hfterm, ?_⟩
      exact (hdiff.resolve_left (not_not.mpr hfindex)).resolve_left (not_not.mpr hfterm)
    · exact .inl ⟨e, he, e', he', hindex, hterm, f, hf, f', hf', hfindex, hle, hfterm⟩
  · rintro (⟨e, he, e', he', hindex, hterm, f, hf, f', hf', hfindex, hle, hdiff⟩ |
      ⟨e, he, e', he', hindex, hterm, hdiff⟩)
    · exact ⟨e, he, e', he', hindex, hterm, f, hf, f', hf', hfindex, hle, .inr (.inl hdiff)⟩
    · exact ⟨e, he, e', he', hindex, hterm, e, he, e', he', hindex, le_refl _, .inr (.inr hdiff)⟩

theorem somePair_or {bad bad' : List LogEntry → List LogEntry → Prop} :
    SomePair nodes (fun log log' => bad log log' ∨ bad' log log') ↔
      SomePair nodes bad ∨ SomePair nodes bad' := by
  simp only [SomePair, and_or_left, exists_or]

/-- **When the validator is exact.** It reports an error exactly if two logs that share an entry
differ before it, unless all such differences are in types or data alone. -/
theorem validateLogMatching_exact_iff (outer : IterationOrder NodeLog)
    (inner : String → IterationOrder NodeLog) (nodes : List RaftNode)
    (hids : (nodes.map RaftNode.id).Nodup) (hnumbered : ∀ node ∈ nodes, Numbered node.log) :
    ((validateLogMatching outer inner nodes).isSome ↔ SomePair nodes (Breaks Differ)) ↔
      (SomePair nodes Forged → SomePair nodes (Breaks OtherTerm)) := by
  have hpair : SomePair nodes (Breaks Differ) ↔
      SomePair nodes (Breaks OtherTerm) ∨ SomePair nodes Forged := by
    rw [← somePair_or]
    simp only [SomePair, breaks_differ_iff]
  rw [isSome_validateLogMatching outer inner hids hnumbered, hpair, iff_self_or]

/-- A node whose log is committed. -/
def committedNode (id : String) (state : RaftState) (term : Int) (log : List LogEntry) : RaftNode :=
  { newRaftNode id .none with
    state := state, currentTerm := term, log := log, commitIndex := log.length }

/-- Two nodes with one entry each, of the given data. -/
def twoLogs (data data' : UInt8) : List RaftNode :=
  [committedNode "n1" .leader 1 [⟨1, 1, "PUT", [data], 0⟩],
    committedNode "n2" .follower 1 [⟨1, 1, "PUT", [data'], 0⟩]]

theorem numbered_twoLogs (data data' : UInt8) : ∀ node ∈ twoLogs data data', Numbered node.log :=
  forall_mem_cons.mpr ⟨numbered_nil.concat rfl, forall_mem_singleton.mpr (numbered_nil.concat rfl)⟩

theorem validateLogMatching_exact_equal :
    (validateLogMatching .asGiven (fun _ => .asGiven) (twoLogs 7 7)).isSome ↔
      SomePair (twoLogs 7 7) (Breaks Differ) :=
  (validateLogMatching_exact_iff _ _ _ (by decide) (numbered_twoLogs 7 7)).mpr (by decide +kernel)

/-- The same index and term, other data, and no error. -/
theorem validateLogMatching_misses_data :
    ((twoLogs 7 8).map RaftNode.id).Nodup ∧ (∀ node ∈ twoLogs 7 8, Numbered node.log) ∧
      ¬((validateLogMatching .asGiven (fun _ => .asGiven) (twoLogs 7 8)).isSome ↔
        SomePair (twoLogs 7 8) (Breaks Differ)) :=
  ⟨by decide, numbered_twoLogs 7 8, by decide +kernel⟩

/-! ## Leader completeness -/

/-- The map `committedEntries`. -/
abbrev CommittedEntries := GoMap Int LogEntry

/-- A "commit safety violation". -/
structure CommitViolation where
  nodeID : String
  index : Int
  term : Int
  committedTerm : Int

/-- The loop of `ValidateCommitSafety` over the committed entries of a node. -/
def checkCommitted (nodeID : String) :
    List LogEntry → CommittedEntries → CommittedEntries × Option CommitViolation
  | [], committed => (committed, none)
  | entry :: log, committed =>
    match committed.lookup entry.index with
    | some c =>
      if c.term ≠ entry.term ∨ c.data ≠ entry.data then
        (committed, some ⟨nodeID, entry.index, entry.term, c.term⟩)
      else checkCommitted nodeID log committed
    | none => checkCommitted nodeID log (committed.insert entry.index entry)

/-- `ValidateCommitSafety`: the map is changed also when an error is returned. -/
def validateCommitSafety :
    List RaftNode → CommittedEntries → CommittedEntries × Option CommitViolation
  | [], committed => (committed, none)
  | node :: nodes, committed =>
    match checkCommitted node.id (node.log.take node.commitIndex.toNat) committed with
    | (committed, some violation) => (committed, some violation)
    | (committed, none) => validateCommitSafety nodes committed

/-- The map after a sequence of calls, which begins with an empty one. -/
def recorded (calls : List (List RaftNode)) : CommittedEntries :=
  calls.foldl (fun committed nodes => (validateCommitSafety nodes committed).1) ∅

/-- The map `leaders` of `ValidateLeaderCompleteness`: a later leader of a term replaces an earlier
one. -/
def leaders (nodes : List RaftNode) : GoMap Int RaftNode :=
  nodes.foldl (fun m node => if node.state = .leader then m.insert node.currentTerm node else m) ∅

/-- No entry of the log has this index and term. -/
def Lacks (node : RaftNode) (entry : LogEntry) : Prop :=
  ∀ e ∈ node.log, ¬SameEntry (e, entry)

instance (node : RaftNode) (entry : LogEntry) : Decidable (Lacks node entry) :=
  inferInstanceAs (Decidable (∀ e ∈ _, _))

/-- Every entry is recorded under its index. -/
def ByIndex (committed : CommittedEntries) : Prop :=
  ∀ k e, committed.lookup k = some e → e.index = k

theorem ByIndex.checkCommitted (nodeID : String) (log : List LogEntry)
    {committed : CommittedEntries} (h : ByIndex committed) :
    ByIndex (checkCommitted nodeID log committed).1 := by
  induction log generalizing committed with
  | nil => exact h
  | cons entry log ih =>
    rw [Consensus.checkCommitted]
    split
    · split
      · exact h
      · exact ih h
    · refine ih fun k e hk => ?_
      rcases GoMap.lookup_insert_eq_some.mp hk with ⟨rfl, rfl⟩ | ⟨-, hk⟩
      · rfl
      · exact h k e hk

theorem ByIndex.validateCommitSafety (nodes : List RaftNode) {committed : CommittedEntries}
    (h : ByIndex committed) : ByIndex (validateCommitSafety nodes committed).1 := by
  induction nodes generalizing committed with
  | nil => exact h
  | cons node nodes ih =>
    have hnode := h.checkCommitted node.id (node.log.take node.commitIndex.toNat)
    rw [Consensus.validateCommitSafety]
    split
    · next heq => rwa [heq] at hnode
    · next heq =>
      rw [heq] at hnode
      exact ih hnode

/-- The last leader of a term in the list. -/
def lastLeader (nodes : List RaftNode) (term : Int) : Option RaftNode :=
  (nodes.filter fun node => node.state = .leader ∧ node.currentTerm = term).getLast?

/-- The leaders and the recorded entries are such that an index does for a term: no two leaders
have one term, and an entry that a leader lacks has its index below the leader's term exactly if it
has its term below it. -/
structure Comparable (nodes : List RaftNode) (committed : CommittedEntries) : Prop where
  single : ∀ node ∈ nodes, ∀ node' ∈ nodes, node.state = .leader → node'.state = .leader →
    node.currentTerm = node'.currentTerm → node = node'
  aligned : ∀ node ∈ nodes, node.state = .leader → ∀ k e, committed.lookup k = some e →
    Lacks node e → (e.index < node.currentTerm ↔ e.term < node.currentTerm)

theorem of_lastLeader {nodes : List RaftNode} {term : Int} {node : RaftNode}
    (h : lastLeader nodes term = some node) :
    node ∈ nodes ∧ node.state = .leader ∧ node.currentTerm = term := by
  simpa using mem_of_mem_getLast? h

theorem Comparable.lastLeader {nodes : List RaftNode} {committed : CommittedEntries}
    (h : Comparable nodes committed) {node : RaftNode} (hmem : node ∈ nodes)
    (hleader : node.state = .leader) : lastLeader nodes node.currentTerm = some node := by
  cases hlast : Consensus.lastLeader nodes node.currentTerm with
  | none =>
    rw [Consensus.lastLeader, getLast?_eq_none_iff, filter_eq_nil_iff] at hlast
    exact absurd (hlast node hmem) (by simp [hleader])
  | some node' =>
    obtain ⟨hmem', hleader', hterm⟩ := of_lastLeader hlast
    rw [h.single node' hmem' node hmem hleader' hleader hterm]

end DistributedKV.Consensus
