import DistributedKV.Consensus.NodeSpec

/-!
# Counting votes

`requestVotes` makes the node leader as soon as its own vote and the granted ones reach the
majority, which it checks inside the loop that collects the responses. The loop finds the majority
exactly if it is there at the end (`collectVotes_leader_iff`), but a majority that needs no
response is not noticed: a node without peers never becomes leader (`lone_node_counterexample`).
-/

namespace DistributedKV.Consensus

/-- One turn of the collecting loop: the node as it is then, and the response received. -/
structure VoteTurn where
  node : RaftNode
  response : VoteResponse

/-- The number of granted votes among the responses. -/
def grantedVotes (turns : List VoteTurn) : Nat := turns.countP fun t => t.response.voteGranted

/-- The round with one more response counted. -/
def VoteRound.count (round : VoteRound) (response : VoteResponse) : VoteRound :=
  { round with
    votes := round.votes + if response.voteGranted then 1 else 0
    waiting := round.waiting.erase response.nodeID }

namespace RaftNode

/-- The collecting loop of `requestVotes`, one turn for each response, up to the turn that
returns from the goroutine; the result is the node as the loop leaves it. -/
def collectVotes (disk : Disk) : RaftNode → VoteRound → List VoteTurn → RaftNode
  | rn, _, [] => rn
  | _, round, turn :: turns =>
    match turn.node.collectVote disk round turn.response with
    | (rn, none) => rn
    | (rn, some round) => collectVotes disk rn round turns

/-- The node is still the candidate of the round at this turn, and the response
does not end that. -/
def StaysCandidate (term : Int) (turn : VoteTurn) : Prop :=
  turn.node.state = .candidate ∧ turn.node.currentTerm = term ∧ turn.response.term ≤ term

instance (term : Int) (turn : VoteTurn) : Decidable (StaysCandidate term turn) :=
  inferInstanceAs (Decidable (_ ∧ _ ∧ _))

/-- One turn of a candidate: count the vote, then compare with the majority. -/
theorem collectVote_of_staysCandidate {disk : Disk} {round : VoteRound} {turn : VoteTurn}
    (h : StaysCandidate round.request.term turn) : turn.node.collectVote disk round turn.response =
      if round.majority ≤ (round.count turn.response).votes then (turn.node.becomeLeader, none)
      else (turn.node, some (round.count turn.response)) := by
  obtain ⟨hcand, hterm, hresp⟩ := h
  rw [collectVote, if_neg (by simp [hcand, hterm]), if_neg (by omega), VoteRound.count]
  cases turn.response.voteGranted <;> rfl

/-- **The tally over a run of the loop**: unless it ends before its first check, the node is
leader in the end exactly if the votes reach the majority. -/
theorem collectVotes_leader {disk : Disk} {turns : List VoteTurn} {rn : RaftNode}
    {round : VoteRound} (hcand : rn.state = .candidate)
    (hstart : turns ≠ [] ∨ round.votes < round.majority)
    (hstay : ∀ t ∈ turns, StaysCandidate round.request.term t) :
    (collectVotes disk rn round turns).state = .leader ↔
      round.majority ≤ round.votes + grantedVotes turns := by
  induction turns generalizing rn round with
  | nil =>
    have hless : round.votes < round.majority := hstart.resolve_left (fun h => h rfl)
    refine iff_of_false ?_ ?_
    · show rn.state ≠ .leader
      rw [hcand]
      decide
    · show ¬round.majority ≤ round.votes + 0
      omega
  | cons turn turns ih =>
    have hturn := hstay turn List.mem_cons_self
    have hvotes : (round.count turn.response).votes + grantedVotes turns =
        round.votes + grantedVotes (turn :: turns) := by
      rw [grantedVotes, grantedVotes, List.countP_cons]
      show round.votes + _ + _ = _
      omega
    rw [collectVotes, collectVote_of_staysCandidate hturn, ← hvotes]
    by_cases hmaj : round.majority ≤ (round.count turn.response).votes
    · -- the majority is reached here, and later responses cannot take it away
      rw [if_pos hmaj]
      exact iff_of_true rfl (by omega)
    rw [if_neg hmaj]
    have hless : (round.count turn.response).votes < round.majority := by omega
    exact ih hturn.1 (Or.inr hless) fun t ht => hstay t (List.mem_cons_of_mem _ ht)

/-- **When the tally decides the election.** With one response for each peer and the node
staying candidate, `requestVotes` makes it leader exactly when its own vote and the granted ones
reach the majority, if and only if there is a peer at all. -/
theorem collectVotes_leader_iff (disk : Disk) (rn : RaftNode) (turns : List VoteTurn)
    (hcand : rn.state = .candidate) (hall : turns.length = rn.peers.length)
    (hstay : ∀ t ∈ turns, StaysCandidate rn.currentTerm t) :
    ((collectVotes disk rn rn.requestVotes turns).state = .leader ↔
        rn.getMajority ≤ 1 + grantedVotes turns) ↔ rn.peers ≠ [] := by
  by_cases hpeers : rn.peers = []
  · obtain rfl : turns = [] := List.length_eq_zero_iff.mp (by rw [hall, hpeers]; rfl)
    refine iff_of_false ?_ (not_not.mpr hpeers)
    intro hiff
    -- the majority of a single node is its own vote
    have hmaj : rn.getMajority ≤ 1 + grantedVotes [] := by
      rw [getMajority, hpeers]
      decide
    have hleader : rn.state = .leader := hiff.mpr hmaj
    rw [hcand] at hleader
    exact absurd hleader (by decide)
  · have hne : turns ≠ [] := by
      rintro rfl
      exact hpeers (List.length_eq_zero_iff.mp hall.symm)
    exact iff_of_true (collectVotes_leader hcand (Or.inl hne) hstay) hpeers

theorem collectVotes_three_nodes :
    let rn := ((newRaftNode "n1" .none).addPeer "n2").addPeer "n3" |>.startElection .healthy
    let turns : List VoteTurn := [⟨rn, ⟨1, false, "n2"⟩⟩, ⟨rn, ⟨1, true, "n3"⟩⟩]
    (collectVotes .healthy rn rn.requestVotes turns).state = .leader := by
  intro rn turns
  have hpeers : rn.peers ≠ [] := by decide
  have hstay : ∀ t ∈ turns, StaysCandidate rn.currentTerm t := by decide
  exact ((collectVotes_leader_iff .healthy rn turns rfl rfl hstay).mpr hpeers).mpr (by decide)

/-- **A node without peers is never elected**: the loop that would notice has no turn. -/
theorem lone_node_counterexample :
    let rn := (newRaftNode "n1" .none).startElection .healthy
    rn.peers = [] ∧ rn.state = .candidate ∧ rn.getMajority = 1 ∧
      (collectVotes .healthy rn rn.requestVotes []).state = .candidate := by
  decide

end RaftNode

end DistributedKV.Consensus
