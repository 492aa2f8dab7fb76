import DistributedKV.Consensus.NodeSpec

/-!
# How terms travel between nodes

A node that receives a reply of a higher term should adopt it and become a follower, and every
reply should carry the term its sender has after it handled the request. `termRule_iff` says for
every node and message when this holds. It holds for every append request. It fails

- for every append response of a higher term: the handler already leaves when the terms differ;
- for a vote response of a higher term that reaches a node which is no longer the candidate of
  that round, and for every one that comes in through the event loop, which only puts it back;
- for the reply to a vote request of a newer term that is refused: it has the term from before.
-/

namespace DistributedKV.Consensus

/-- What a node receives. A vote response reaches the goroutine of its round, or the event loop.
-/
inductive RaftMessage where
  | voteResponse (round : VoteRound) (resp : VoteResponse)
  | queuedVoteResponse (resp : VoteResponse)
  | appendResponse (peerID : String) (req : AppendRequest) (resp : AppendResponse)
  | voteRequest (req : VoteRequest)
  | appendRequest (req : AppendRequest)

namespace RaftNode

/-- `handleVoteResponse`: the response goes back to its channel, or is dropped when that is
full. -/
def handleVoteResponse (rn : RaftNode) (_resp : VoteResponse) : RaftNode := rn

/-- The node is a follower of the given term. -/
def Follows (rn : RaftNode) (term : Int) : Prop := rn.currentTerm = term ∧ rn.state = .follower

/-- A reply of a higher term is followed, and a request is answered with the term afterwards. -/
def TermRule (disk : Disk) (rn : RaftNode) : RaftMessage → Prop
  | .voteResponse round resp =>
    rn.currentTerm < resp.term → (rn.collectVote disk round resp).1.Follows resp.term
  | .queuedVoteResponse resp =>
    rn.currentTerm < resp.term → (rn.handleVoteResponse resp).Follows resp.term
  | .appendResponse peerID req resp =>
    rn.currentTerm < resp.term →
      ∃ rn', rn.handleAppendEntriesResponse disk peerID req resp = some rn' ∧
        rn'.Follows resp.term
  | .voteRequest req =>
    (rn.handleVoteRequest disk req).2.term = (rn.handleVoteRequest disk req).1.currentTerm
  | .appendRequest req =>
    ∀ r ∈ (rn.handleAppendEntries disk req).2,
      r.term = (rn.handleAppendEntries disk req).1.currentTerm

/-- When the rule holds, from the node and the message alone. -/
def KeepsTermRule (rn : RaftNode) : RaftMessage → Prop
  | .voteResponse round resp =>
    resp.term ≤ rn.currentTerm ∨ (rn.state = .candidate ∧ rn.currentTerm = round.request.term)
  | .queuedVoteResponse resp => resp.term ≤ rn.currentTerm
  | .appendResponse _ _ resp => resp.term ≤ rn.currentTerm
  | .voteRequest req =>
    req.term ≤ rn.currentTerm ∨ rn.isLogUpToDate req.lastLogIndex req.lastLogTerm = true
  | .appendRequest _ => True

theorem not_follows_of_lt {rn : RaftNode} {term : Int} (h : rn.currentTerm < term) :
    ¬rn.Follows term := by
  rintro ⟨heq, -⟩
  omega

/-- A round that is still running takes over a higher term, any other ignores it. -/
theorem collectVote_of_lt {disk : Disk} {rn : RaftNode} {round : VoteRound} {resp : VoteResponse}
    (h : rn.currentTerm < resp.term) : (rn.collectVote disk round resp).1.Follows resp.term ↔
      rn.state = .candidate ∧ rn.currentTerm = round.request.term := by
  rw [collectVote]
  split_ifs with hmoved
  · refine iff_of_false (not_follows_of_lt h) ?_
    rintro ⟨hcand, hterm⟩
    exact hmoved.elim (fun hne => hne hcand) (fun hne => hne hterm)
  · push Not at hmoved
    exact iff_of_true ⟨rfl, rfl⟩ hmoved

/-- The reply to a vote request carries the node's new term, unless the request
is newer and refused. -/
theorem voteRequest_term_iff (disk : Disk) (rn : RaftNode) (req : VoteRequest) :
    (rn.handleVoteRequest disk req).2.term = (rn.handleVoteRequest disk req).1.currentTerm ↔
      req.term ≤ rn.currentTerm ∨ rn.isLogUpToDate req.lastLogIndex req.lastLogTerm = true := by
  have h := rn.handleVoteRequest_outcome disk req
  generalize rn.handleVoteRequest disk req = out at h ⊢
  cases h with
  | stale | refused | granted => exact iff_of_true rfl (Or.inl (by omega))
  | newerRefused hnew hup =>
    refine iff_of_false ?_ ?_
    · show rn.currentTerm ≠ req.term
      omega
    rintro (hle | hup')
    · omega
    · exact Bool.false_ne_true (hup.symm.trans hup')
  | newerGranted hnew hup => exact iff_of_true rfl (Or.inr hup)

theorem appendRequest_term {disk : Disk} {rn : RaftNode} {req : AppendRequest}
    {r : AppendResponse} (hr : (rn.handleAppendEntries disk req).2 = some r) :
    r.term = (rn.handleAppendEntries disk req).1.currentTerm := by
  rw [handleAppendEntries_eq] at hr ⊢
  split_ifs at hr ⊢
  · rw [← Option.some.inj hr]
  · rw [← Option.some.inj hr]
    rfl
  cases hlog : mergedLog rn.log req with
  | none => simp [hlog] at hr
  | some log =>
    rw [hlog] at hr
    rw [← Option.some.inj hr]
    rfl

/-- **When terms propagate.** For every node, disk and message. -/
theorem termRule_iff (disk : Disk) (rn : RaftNode) (message : RaftMessage) :
    rn.TermRule disk message ↔ rn.KeepsTermRule message := by
  cases message with
  | voteResponse round resp =>
    show (rn.currentTerm < resp.term → _) ↔ (resp.term ≤ rn.currentTerm ∨ _)
    by_cases h : rn.currentTerm < resp.term
    · rw [← @collectVote_of_lt disk rn round resp h]
      exact ⟨fun hrule => Or.inr (hrule h), fun hor _ => hor.resolve_left (by omega)⟩
    · exact iff_of_true (fun h' => absurd h' h) (Or.inl (by omega))
  | queuedVoteResponse resp =>
    constructor
    · intro hrule
      by_contra hgt
      exact not_follows_of_lt (Int.not_le.mp hgt) (hrule (Int.not_le.mp hgt))
    · intro hle h
      exact absurd h (Int.not_lt.mpr hle)
  | appendResponse peerID req resp =>
    constructor
    · intro hrule
      by_contra hgt
      have hlt : rn.currentTerm < resp.term := Int.not_le.mp hgt
      obtain ⟨rn', hrn', hfollows⟩ := hrule hlt
      rw [handleAppendEntriesResponse_ignored (Or.inr (by omega))] at hrn'
      cases hrn'
      exact not_follows_of_lt hlt hfollows
    · intro hle h
      exact absurd h (Int.not_lt.mpr hle)
  | voteRequest req => exact voteRequest_term_iff disk rn req
  | appendRequest req => exact iff_of_true (fun r hr => appendRequest_term hr) trivial

/-- **Two failures.** A leader of term 1 that gets an append response of term 5 stays leader. A
node whose log is ahead adopts term 5 from a vote request, but answers with term 1. -/
theorem term_lost_counterexample :
    let node : RaftNode := { newRaftNode "n1" .none with
      state := .leader
      currentTerm := 1
      log := [⟨1, 1, "put", [], 0⟩] }
    let request : VoteRequest := ⟨5, "n2", 0, 0⟩
    node.handleAppendEntriesResponse .healthy "n2" ⟨1, "n1", 0, 0, [], 0⟩ ⟨5, false, 0, "n2"⟩ =
        some node ∧ (node.handleVoteRequest .healthy request).1.currentTerm = 5 ∧
      (node.handleVoteRequest .healthy request).2 = ⟨1, false, "n1"⟩ := by
  refine ⟨rfl, ?_⟩
  decide

end RaftNode

end DistributedKV.Consensus
