import DistributedKV.Consensus.NodeSpec

/-!
# Everything that happens to one running node

The calls of one process, on whatever the disk answers. `Call.effect` sorts them by what they do
to a leader's knowledge of its peers: most do not touch it (`Steady`), two change the membership,
one starts a leadership, one takes in a response.
-/

namespace DistributedKV.Consensus

open Option

/-- A call on a running node. -/
inductive Call where
  | addPeer (id : String)
  | removePeer (id : String)
  | electionTimeout
  | collectVote (round : VoteRound) (resp : VoteResponse)
  | voteRequest (req : VoteRequest)
  | appendRequest (req : AppendRequest)
  | appendEntry (entryType : String) (data : List UInt8) (now : Int)
  | appendResponse (peerID : String) (req : AppendRequest) (resp : AppendResponse)

/-- The node after a call; `none` is a panic. -/
def Call.run (disk : Disk) (rn : RaftNode) : Call → Option RaftNode
  | .addPeer id => some (rn.addPeer id)
  | .removePeer id => some (rn.removePeer id)
  | .electionTimeout => some (rn.handleElectionTimeout disk)
  | .collectVote round resp => some (rn.collectVote disk round resp).1
  | .voteRequest req => some (rn.handleVoteRequest disk req).1
  | .appendRequest req =>
    let out := rn.handleAppendEntries disk req
    out.2.map fun _ => out.1
  | .appendEntry entryType data now => some (rn.appendEntry disk entryType data now).1
  | .appendResponse peerID req resp => rn.handleAppendEntriesResponse disk peerID req resp

/-- The call leaves membership and match indexes, applies nothing, and makes no node leader. -/
structure Steady (rn rn' : RaftNode) : Prop where
  id : rn'.id = rn.id
  peers : rn'.peers = rn.peers
  matchIndex : rn'.matchIndex = rn.matchIndex
  lastApplied : rn'.lastApplied = rn.lastApplied
  leader : rn'.state = .leader → rn.state = .leader ∧ rn'.currentTerm = rn.currentTerm

namespace Steady

variable (disk : Disk) (rn : RaftNode)

theorem refl : Steady rn rn := ⟨rfl, rfl, rfl, rfl, fun h => ⟨h, rfl⟩⟩

theorem of_not_leader {rn rn' : RaftNode} (hid : rn'.id = rn.id) (hpeers : rn'.peers = rn.peers)
    (hmatch : rn'.matchIndex = rn.matchIndex) (happlied : rn'.lastApplied = rn.lastApplied)
    (hstate : rn'.state ≠ .leader) : Steady rn rn' :=
  ⟨hid, hpeers, hmatch, happlied, fun h => absurd h hstate⟩

open RaftNode

theorem stepDown (ok : Bool) (term : Int) : Steady rn (rn.stepDown ok term) :=
  of_not_leader rfl rfl rfl rfl (by simp [RaftNode.stepDown, RaftNode.savePersistentState])

theorem handleElectionTimeout : Steady rn (rn.handleElectionTimeout disk) := by
  unfold RaftNode.handleElectionTimeout
  split_ifs
  · exact refl rn
  · exact of_not_leader rfl rfl rfl rfl (by simp [startElection, savePersistentState])

theorem handleVoteRequest (req : VoteRequest) : Steady rn (rn.handleVoteRequest disk req).1 := by
  have h := rn.handleVoteRequest_outcome disk req
  generalize rn.handleVoteRequest disk req = out at h ⊢
  cases h with
  | stale _ => exact refl rn
  | refused _ _ => exact refl rn
  | granted _ _ _ => exact ⟨rfl, rfl, rfl, rfl, fun h => ⟨h, rfl⟩⟩
  | newerRefused _ _ => exact stepDown rn _ _
  | newerGranted _ _ =>
    exact of_not_leader rfl rfl rfl rfl
      (by simp [RaftNode.voteFor, RaftNode.stepDown, RaftNode.savePersistentState])

theorem handleAppendEntries (req : AppendRequest) :
    Steady rn (rn.handleAppendEntries disk req).1 := by
  rw [handleAppendEntries_eq]
  split_ifs
  · exact refl rn
  · exact stepDown rn _ _
  cases mergedLog rn.log req with
  | none => exact stepDown rn _ _
  | some log =>
    exact of_not_leader rfl rfl rfl rfl
      (by simp [RaftNode.accept, RaftNode.stepDown, RaftNode.savePersistentState])

theorem appendEntry (entryType : String) (data : List UInt8) (now : Int) :
    Steady rn (rn.appendEntry disk entryType data now).1 := by
  by_cases hlead : rn.state = .leader
  · rw [appendEntry_leader hlead]
    exact ⟨rfl, rfl, rfl, rfl, fun _ => ⟨hlead, rfl⟩⟩
  · rw [appendEntry_not_leader hlead]
    exact refl rn

theorem collectVote (round : VoteRound) (resp : VoteResponse) :
    Steady rn (rn.collectVote disk round resp).1 ∨
      (rn.state = .candidate ∧ (rn.collectVote disk round resp).1 = rn.becomeLeader) := by
  rw [RaftNode.collectVote]
  by_cases hmoved : rn.state ≠ .candidate ∨ rn.currentTerm ≠ round.request.term
  · rw [if_pos hmoved]
    exact Or.inl (refl rn)
  rw [if_neg hmoved]
  by_cases hterm : resp.term > rn.currentTerm
  · rw [if_pos hterm]
    exact Or.inl (stepDown rn _ _)
  generalize (if resp.voteGranted then round.votes + 1 else round.votes) = votes
  push Not at hmoved
  dsimp only
  split_ifs
  · exact Or.inr ⟨hmoved.1, rfl⟩
  · exact Or.inl (refl rn)

end Steady

/-- What a call does. -/
inductive Effect (rn : RaftNode) : Call → RaftNode → Prop where
  | steady {call : Call} {rn' : RaftNode} (steady : Steady rn rn')
      (notResponse : ∀ peer req resp, call ≠ .appendResponse peer req resp) : Effect rn call rn'
  | added (id : String) : Effect rn (.addPeer id) (rn.addPeer id)
  | removed (id : String) : Effect rn (.removePeer id) (rn.removePeer id)
  | elected (round : VoteRound) (resp : VoteResponse) (candidate : rn.state = .candidate) :
      Effect rn (.collectVote round resp) rn.becomeLeader
  | answered {disk : Disk} (peer : String) (req : AppendRequest) (resp : AppendResponse)
      {rn' : RaftNode} (taken : rn.handleAppendEntriesResponse disk peer req resp = some rn') :
      Effect rn (.appendResponse peer req resp) rn'

/-- **Every call has one of these effects.** -/
theorem Call.effect {disk : Disk} {rn rn' : RaftNode} {call : Call}
    (h : call.run disk rn = some rn') : Effect rn call rn' := by
  cases call with
  | addPeer id =>
    cases h
    exact .added id
  | removePeer id =>
    cases h
    exact .removed id
  | electionTimeout =>
    cases h
    exact .steady (.handleElectionTimeout disk rn) (by rintro _ _ _ ⟨⟩)
  | collectVote round resp =>
    cases h
    rcases Steady.collectVote disk rn round resp with hsteady | ⟨hcand, hlead⟩
    · exact .steady hsteady (by rintro _ _ _ ⟨⟩)
    · rw [hlead]
      exact .elected round resp hcand
  | voteRequest req =>
    cases h
    exact .steady (.handleVoteRequest disk rn req) (by rintro _ _ _ ⟨⟩)
  | appendRequest req =>
    obtain ⟨-, -, rfl⟩ := map_eq_some_iff.mp h
    exact .steady (.handleAppendEntries disk rn req) (by rintro _ _ _ ⟨⟩)
  | appendEntry entryType data now =>
    cases h
    exact .steady (.appendEntry disk rn entryType data now) (by rintro _ _ _ ⟨⟩)
  | appendResponse peer req resp => exact .answered peer req resp h

end DistributedKV.Consensus
