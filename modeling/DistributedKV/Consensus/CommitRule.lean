import DistributedKV.Lib.Lts
import DistributedKV.Consensus.Calls

/-!
# The commit rule under membership changes

A leader commits an index when the match indexes say that a majority holds it. `updateCommitIndex`
counts the whole `matchIndex` map, but the majority is one of `peers`: a response that arrives
after `RemovePeer` puts the peer back into the map, where it stays, over elections too. Besides,
`getMajority` is half of the members, not more than half, if their number is even.
-/

namespace DistributedKV.Consensus

open IndexMap List

/-- A successful response: who acknowledged which index in which term. -/
structure Ack where
  peer : String
  term : Int
  index : Int

/-- A node, and every acknowledgement it was sent so far. -/
structure Observed where
  node : RaftNode
  acks : List Ack

/-- A call together with the answers of the disk. -/
structure Event where
  disk : Disk
  call : Call

/-- The acknowledgement a call brings. -/
def Call.acks : Call → List Ack
  | .appendResponse peer req resp =>
    if resp.success then [⟨peer, resp.term, req.prevLogIndex + req.entries.length⟩] else []
  | _ => []

namespace Observed

variable (s : Observed)

/-- One call; the acknowledgements are only collected. -/
def step (e : Event) : Option Observed :=
  (e.call.run e.disk s.node).map fun rn => ⟨rn, s.acks ++ e.call.acks⟩

/-- A node right after its creation. -/
def init (id : String) (files : NodeFiles) : Observed := ⟨newRaftNode id files, []⟩

/-! ## The rule -/

/-- The current members: the node itself and its peers. -/
def members : List String := s.node.id :: s.node.peers.filter (· ≠ s.node.id)

/-- The peer has acknowledged, in the current term, an index of at least `n`. -/
def Acked (n : Int) (peer : String) : Prop :=
  ∃ a ∈ s.acks, a.peer = peer ∧ a.term = s.node.currentTerm ∧ n ≤ a.index

instance (s : Observed) (n : Int) (peer : String) : Decidable (s.Acked n peer) := by
  unfold Acked
  infer_instance

/-- The members that hold index `n`: the node itself, and who acknowledged it. -/
def holders (n : Int) : List String :=
  s.members.filter fun m => m = s.node.id ∨ s.Acked n m

/-- The commit index is one the node may have moved to. -/
structure Backed (s : Observed) : Prop where
  entry : ∃ e, entryAt s.node.log s.node.commitIndex = some e ∧ e.term = s.node.currentTerm
  majority : s.members.length < 2 * (s.holders s.node.commitIndex).length

/-- If the response that is handled moves the commit index, then to one that is backed. -/
def CommitRule (e : Event) : Prop :=
  ∀ peer req resp, e.call = .appendResponse peer req resp →
    ∀ t, s.step e = some t → t.node.commitIndex ≠ s.node.commitIndex → t.Backed

/-- The leader takes the response as a success. -/
def Takes (req : AppendRequest) (resp : AppendResponse) : Prop :=
  s.node.state = .leader ∧ resp.term = s.node.currentTerm ∧ resp.success = true ∧ req.entries ≠ []

/-- The node is not added as its own peer, and a success that the leader takes comes from a
current peer while the number of members is odd. -/
def Orderly (e : Event) : Prop :=
  match e.call with
  | .addPeer id => id ≠ s.node.id
  | .appendResponse peer req resp =>
    s.Takes req resp → peer ∈ s.node.peers ∧ s.node.peers.length % 2 = 0
  | _ => True

instance (s : Observed) (req : AppendRequest) (resp : AppendResponse) :
    Decidable (s.Takes req resp) := inferInstanceAs (Decidable (_ ∧ _ ∧ _ ∧ _))

instance (s : Observed) : ∀ e, Decidable (s.Orderly e) := fun ⟨_, call⟩ => by
  cases call <;> dsimp only [Orderly] <;> infer_instance

/-! ## The invariant -/

/-- The match indexes are about current peers, acknowledged in the term in which the node leads.
-/
structure Accounted (s : Observed) : Prop where
  nodup : s.node.peers.Nodup
  self : s.node.id ∉ s.node.peers
  keys : ∀ e ∈ s.node.matchIndex.entries, e.1 ∈ s.node.peers
  acked : s.node.state = .leader → ∀ e ∈ s.node.matchIndex.entries, 0 < e.2 → s.Acked e.2 e.1

theorem accounted_init (id : String) (files : NodeFiles) : (init id files).Accounted where
  nodup := nodup_nil
  self := not_mem_nil
  keys _ he := absurd he not_mem_nil
  acked _ _ he := absurd he not_mem_nil

variable {s : Observed} {peer : String}

theorem Acked.lower {n m : Int} (h : s.Acked m peer) (hle : n ≤ m) : s.Acked n peer := by
  obtain ⟨a, ha, hp, ht, hi⟩ := h
  exact ⟨a, ha, hp, ht, hle.trans hi⟩

theorem Acked.mono {t : Observed} {n : Int} (h : s.Acked n peer)
    (hterm : t.node.currentTerm = s.node.currentTerm) (hacks : s.acks ⊆ t.acks) :
    t.Acked n peer := by
  obtain ⟨a, ha, hp, ht, hi⟩ := h
  exact ⟨a, hacks ha, hp, ht.trans hterm.symm, hi⟩

section Step

variable {s : Observed} {acks : List Ack}

theorem Accounted.steady (h : s.Accounted) {rn : RaftNode} (hsteady : Steady s.node rn)
    (hacks : s.acks ⊆ acks) : Accounted ⟨rn, acks⟩ where
  nodup := by
    rw [hsteady.peers]
    exact h.nodup
  self := by
    rw [hsteady.peers, hsteady.id]
    exact h.self
  keys e he := by
    rw [hsteady.peers]
    exact h.keys e (hsteady.matchIndex ▸ he)
  acked hlead e he hpos := by
    obtain ⟨hold, hterm⟩ := hsteady.leader hlead
    exact (h.acked hold e (hsteady.matchIndex ▸ he) hpos).mono hterm hacks

open RaftNode

theorem Accounted.addPeer (h : s.Accounted) {id : String} (hid : id ≠ s.node.id)
    (hacks : s.acks ⊆ acks) : Accounted ⟨s.node.addPeer id, acks⟩ where
  nodup := nodup_peers_addPeer h.nodup id
  self := by
    rw [mem_peers_addPeer, id_addPeer]
    rintro (hin | heq)
    · exact h.self hin
    · exact hid heq.symm
  keys e he := by
    refine mem_peers_addPeer.mpr ?_
    rcases mem_matchIndex_addPeer he with hold | rfl
    · exact Or.inl (h.keys e hold)
    · exact Or.inr rfl
  acked hlead e he hpos := by
    have hrole : (s.node.addPeer id).state = s.node.state ∧
        (s.node.addPeer id).currentTerm = s.node.currentTerm := by
      rw [addPeer_eq]
      exact ⟨rfl, rfl⟩
    rcases mem_matchIndex_addPeer he with hold | rfl
    · exact (h.acked (hrole.1.symm.trans hlead) e hold hpos).mono hrole.2 hacks
    · exact absurd hpos (lt_irrefl 0)

theorem Accounted.removePeer (h : s.Accounted) (id : String) (hacks : s.acks ⊆ acks) :
    Accounted ⟨s.node.removePeer id, acks⟩ where
  nodup := h.nodup.filter _
  self hin := h.self (mem_filter.mp hin).1
  keys e he := by
    obtain ⟨hold, hne⟩ := mem_entries_erase he
    exact mem_filter.mpr ⟨h.keys e hold, by simpa using hne⟩
  acked hlead e he hpos := (h.acked hlead e (mem_entries_erase he).1 hpos).mono rfl hacks

theorem Accounted.becomeLeader (h : s.Accounted) : Accounted ⟨s.node.becomeLeader, acks⟩ where
  nodup := h.nodup
  self := h.self
  keys e he := (mem_matchIndex_becomeLeader h.keys he).1
  acked _ e he hpos := by
    have := (mem_matchIndex_becomeLeader h.keys he).2
    omega

/-- A success that is taken from a current peer is an acknowledgement of this
term. -/
theorem Accounted.matched (h : s.Accounted) {peer : String} (hpeer : peer ∈ s.node.peers)
    (matched next commit : Int) :
    Accounted ⟨{ s.node with
        matchIndex := s.node.matchIndex.insert peer matched
        nextIndex := s.node.nextIndex.insert peer next
        commitIndex := commit },
      s.acks ++ [⟨peer, s.node.currentTerm, matched⟩]⟩ where
  nodup := h.nodup
  self := h.self
  keys e he := by
    rcases mem_entries_insert he with rfl | ⟨hold, -⟩
    · exact hpeer
    · exact h.keys e hold
  acked hlead e he hpos := by
    rcases mem_entries_insert he with rfl | ⟨hold, -⟩
    · exact ⟨_, mem_append_right _ (mem_singleton.mpr rfl), rfl, rfl, le_refl _⟩
    · exact (h.acked hlead e hold hpos).mono rfl (subset_append_left _ _)

end Step

/-! ## What the leader counts -/

/-- Without its own id among the peers, the node counts each member once. -/
theorem Accounted.members_eq (h : s.Accounted) : s.members = s.node.id :: s.node.peers := by
  rw [members, filter_eq_self.mpr]
  intro p hp
  have hne : p ≠ s.node.id := fun heq => h.self (heq ▸ hp)
  simpa using hne

/-- **The replicas that are counted hold the index.** -/
theorem Accounted.replicaCount_le (h : s.Accounted) (hlead : s.node.state = .leader) {n : Int}
    (hn : 0 < n) : s.node.replicaCount n ≤ (s.holders n).length := by
  have hsub : s.node.id :: s.node.replicas n ⊆ s.holders n := by
    intro m hm
    rw [holders, h.members_eq]
    rcases mem_cons.mp hm with rfl | hm
    · exact mem_filter.mpr ⟨mem_cons_self, by simp⟩
    obtain ⟨e, he, rfl, hle⟩ := RaftNode.mem_replicas hm
    have hacked := (h.acked hlead e he (by omega)).lower hle
    exact mem_filter.mpr ⟨mem_cons_of_mem _ (h.keys e he), by simp [hacked]⟩
  have hnodup : (s.node.id :: s.node.replicas n).Nodup := by
    refine nodup_cons.mpr ⟨fun hin => ?_, s.node.replicas_nodup n⟩
    obtain ⟨e, he, heq, -⟩ := RaftNode.mem_replicas hin
    exact h.self (heq ▸ h.keys e he)
  rw [RaftNode.replicaCount_eq]
  exact (subperm_of_subset hnodup hsub).length_le

/-- A majority of a cluster of odd size is more than half of it. -/
theorem Accounted.backed (h : s.Accounted) (hlead : s.node.state = .leader)
    (hodd : s.node.peers.length % 2 = 0) {e : LogEntry}
    (he : entryAt s.node.log s.node.commitIndex = some e) (hterm : e.term = s.node.currentTerm)
    (hmaj : s.node.getMajority ≤ s.node.replicaCount s.node.commitIndex) : s.Backed where
  entry := ⟨e, he, hterm⟩
  majority := by
    have hpos : 0 < s.node.commitIndex := by
      by_contra hle
      rw [entryAt, if_neg (by omega)] at he
      simp at he
    have hcount := h.replicaCount_le hlead hpos
    rw [RaftNode.getMajority] at hmaj
    rw [h.members_eq, length_cons]
    omega

/-! ## One step and a whole run -/

/-- A response keeps the accounts, and a commit index that it moves is backed. -/
theorem Accounted.answered (h : s.Accounted) {disk : Disk} {req : AppendRequest}
    {resp : AppendResponse} {rn : RaftNode}
    (hok : s.Takes req resp → peer ∈ s.node.peers ∧ s.node.peers.length % 2 = 0)
    (htaken : s.node.handleAppendEntriesResponse disk peer req resp = some rn) :
    let t : Observed := ⟨rn, s.acks ++ (Call.appendResponse peer req resp).acks⟩
    t.Accounted ∧ (rn.commitIndex ≠ s.node.commitIndex → t.Backed) := by
  intro t
  rcases RaftNode.handleAppendEntriesResponse_cases htaken with rfl |
    ⟨hlead, hterm, hsucc, hne, matched, rfl, hcommit⟩ | ⟨-, -, -, -, rfl⟩
  · exact ⟨h.steady (.refl _) (subset_append_left _ _), fun hmoved => absurd rfl hmoved⟩
  · obtain ⟨hpeer, hodd⟩ := hok ⟨hlead, hterm, hsucc, hne⟩
    have hacks : t.acks = s.acks ++
        [⟨peer, s.node.currentTerm, req.prevLogIndex + req.entries.length⟩] := by
      show s.acks ++ (Call.appendResponse peer req resp).acks = _
      rw [Call.acks, if_pos hsucc, hterm]
    have ht : t = ⟨rn, t.acks⟩ := rfl
    rw [ht, hacks]
    rcases hcommit with rfl | ⟨m, e, -, he, heterm, hmaj, rfl⟩
    · exact ⟨h.matched hpeer _ _ _, fun hmoved => absurd rfl hmoved⟩
    have hacc := h.matched hpeer (req.prevLogIndex + req.entries.length)
      (req.prevLogIndex + req.entries.length + 1) m
    exact ⟨hacc, fun _ => hacc.backed hlead hodd he heterm hmaj⟩
  · exact ⟨h.steady ⟨rfl, rfl, rfl, rfl, fun hl => ⟨hl, rfl⟩⟩ (subset_append_left _ _),
      fun hmoved => absurd rfl hmoved⟩

/-- **One step**: an orderly one keeps the accounts and follows the rule. -/
theorem Accounted.step (h : s.Accounted) {e : Event} (hok : s.Orderly e) :
    s.CommitRule e ∧ ∀ t ∈ s.step e, t.Accounted := by
  obtain ⟨disk, call⟩ := e
  have hgrow : s.acks ⊆ s.acks ++ call.acks := subset_append_left _ _
  constructor
  · rintro peer req resp hcall t ht hmoved
    obtain ⟨rn, hrn, rfl⟩ := Option.map_eq_some_iff.mp ht
    obtain rfl : call = _ := hcall
    cases Call.effect hrn with
    | steady _ hno => exact absurd rfl (hno peer req resp)
    | answered _ _ _ htaken => exact (h.answered hok htaken).2 hmoved
  intro t ht
  obtain ⟨rn, hrn, rfl⟩ := Option.map_eq_some_iff.mp ht
  cases Call.effect hrn with
  | steady hsteady _ => exact h.steady hsteady hgrow
  | added id => exact h.addPeer hok hgrow
  | removed id => exact h.removePeer id hgrow
  | elected round resp _ => exact h.becomeLeader
  | answered peer req resp htaken => exact (h.answered hok htaken).1

/-- **The commit rule, over whole runs.** Through any sequence of orderly calls, a response
moves the commit index only to an entry of the current term that more than half of the current
members have acknowledged in this term. -/
theorem commit_rule_of_orderly (id : String) (files : NodeFiles) (events : List Event)
    (hok : Lts.Along step Orderly (init id files) events) :
    Lts.Along step CommitRule (init id files) events :=
  Lts.Along.mono_of_inv Accounted (fun _ _ hinv hstep => hinv.step hstep)
    (accounted_init id files) hok

/-- A node with the given peers is elected for term 1 and appends one entry. -/
def leading (peers : List String) : List Event :=
  let calls : List Call := peers.map .addPeer ++ [.electionTimeout,
    .collectVote ⟨⟨1, "n1", 0, 0⟩, peers, 1, (peers.length + 2) / 2⟩ ⟨1, true, "n2"⟩,
    .appendEntry "put" [] 0]
  calls.map fun call => ⟨.healthy, call⟩

/-- The peer acknowledges that entry. -/
def acknowledged (peer : String) : Event :=
  ⟨.healthy, .appendResponse peer ⟨1, "n1", 0, 0, [⟨1, 1, "put", [], 0⟩], 0⟩ ⟨1, true, 1, peer⟩⟩

theorem commit_rule_three_members :
    let events := leading ["n2", "n3"] ++ [acknowledged "n3"]
    (Lts.exec step (init "n1" .none) events).map (fun s => s.node.commitIndex) = some 1 ∧
      Lts.Along step CommitRule (init "n1" .none) events :=
  ⟨by decide +kernel, commit_rule_of_orderly "n1" .none _ (by decide +kernel)⟩

/-- **Two runs that break the rule.** `n4` is removed before its response arrives, and the
leader of the three members left commits an entry that it alone holds. And of four members two
are enough to commit, which is not more than half. -/
theorem commit_rule_counterexample :
    let started := leading ["n2", "n3", "n4"]
    let removed := started ++ [⟨.healthy, .removePeer "n4"⟩]
    let report : Observed → Int × List String × List String := fun s =>
      (s.node.commitIndex, s.members, s.holders s.node.commitIndex)
    (Lts.exec step (init "n1" .none) removed).map (fun s => s.node.commitIndex) = some 0 ∧
      (Lts.exec step (init "n1" .none) (removed ++ [acknowledged "n4"])).map report =
        some (1, ["n1", "n2", "n3"], ["n1"]) ∧
      (Lts.exec step (init "n1" .none) started).map (fun s => s.node.commitIndex) = some 0 ∧
      (Lts.exec step (init "n1" .none) (started ++ [acknowledged "n2"])).map report =
        some (1, ["n1", "n2", "n3", "n4"], ["n1", "n2"]) := by
  decide +kernel

end Observed

end DistributedKV.Consensus
