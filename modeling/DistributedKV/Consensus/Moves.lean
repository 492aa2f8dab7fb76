import DistributedKV.Consensus.Cluster

/-!
# What a step does to role, term and log

Ten kinds of actions move the role, the term and the log of a node in only seven ways. `Move`
lists them, and `step_move` says that every step is one of them at the node it runs on
(`Action.actor`) and nothing elsewhere. The `step_…` lemmas after it say the same for the
messages, the vote rounds and the elections that were started.
-/

namespace DistributedKV.Consensus

open Cluster List

/-- The node an action runs on. -/
def Action.actor : Action → String
  | .electionTimeout i | .requestVotes i | .voteRequest i _ | .appendEntry i _ _ _
  | .replicate i _ _ | .appendRequest i _ | .appendResponse i _ _ _ | .restart i => i
  | .voteAnswer round _ _ | .roundTimeout round => round.request.candidateID

/-- One way in which action `a` in state `s` can change role, term and log of its node. -/
inductive Move (members : List String) (s : Cluster) (a : Action) (rn rn' : RaftNode) : Prop
  /-- nothing changes -/
  | rest (state : rn'.state = rn.state) (term : rn'.currentTerm = rn.currentTerm)
      (log : rn'.log = rn.log)
  /-- an election starts -/
  | campaign (member : a.actor ∈ members) (notLeader : rn.state ≠ .leader)
      (state : rn'.state = .candidate) (term : rn'.currentTerm = rn.currentTerm + 1)
      (log : rn'.log = rn.log)
  /-- the node follows a term that is at least its own -/
  | follow (state : rn'.state = .follower) (term : rn.currentTerm ≤ rn'.currentTerm)
      (log : rn'.log = rn.log)
  /-- a candidate has its majority -/
  | win (round : VoteRound) (peer : String) (granted : Bool)
      (action : a = .voteAnswer round peer granted)
      (candidate : rn.state = .candidate) (state : rn'.state = .leader)
      (term : rn'.currentTerm = rn.currentTerm) (log : rn'.log = rn.log)
  /-- a leader appends an entry of its term -/
  | extend (e : LogEntry) (leader : rn.state = .leader) (state : rn'.state = .leader)
      (term : rn'.currentTerm = rn.currentTerm) (log : rn'.log = rn.log ++ [e])
      (eterm : e.term = rn.currentTerm) (index : e.index = lastIndexOf rn.log + 1)
  /-- a follower takes in the entries of a request that was sent to it -/
  | accept (req : AppendRequest) (action : a = .appendRequest a.actor req)
      (sent : (a.actor, req) ∈ s.appendRequests) (known : rn.currentTerm ≤ req.term)
      (consistent : rn.prevMismatch req = false) (state : rn'.state = .follower)
      (term : rn'.currentTerm = req.term) (log : mergedLog rn.log req = some rn'.log)
  /-- a restart loses the log -/
  | restart (action : a = .restart a.actor) (state : rn'.state = .follower)
      (term : rn'.currentTerm = rn.currentTerm) (log : rn'.log = [])

section Handlers

variable {members : List String} {s : Cluster} {a : Action} {i : String} {rn : RaftNode}

theorem move_handleVoteRequest (req : VoteRequest) :
    Move members s a rn (rn.handleVoteRequest .healthy req).1 := by
  rcases rn.handleVoteRequest_cases req with ⟨hrn, -⟩ | ⟨hnew, hrn, -⟩ | ⟨-, hle, -, -, hrn⟩ <;>
    rw [hrn]
  · exact .rest rfl rfl rfl
  · exact .follow rfl (le_of_lt hnew) rfl
  by_cases hnew : rn.currentTerm < req.term
  · exact .follow (if_pos hnew) hle rfl
  · have heq : req.term = rn.currentTerm := by omega
    exact .rest (if_neg hnew) heq rfl

theorem move_collectVote (round : VoteRound) (peer : String) (granted : Bool) :
    Move members s (.voteAnswer round peer granted) rn
      (rn.collectVote .healthy round ⟨round.request.term, granted, peer⟩).1 := by
  rcases rn.collectVote_cases round peer granted with ⟨hout, -⟩ | ⟨-, -, -, hout⟩ |
    ⟨hcand, -, -, hout⟩
  · rw [hout]
    exact .rest rfl rfl rfl
  · rw [hout]
    exact .rest rfl rfl rfl
  · rw [hout]
    exact .win round peer granted rfl hcand rfl rfl rfl

theorem move_appendEntry (entryType : String) (data : List UInt8) (now : Int) :
    Move members s a rn (rn.appendEntry .healthy entryType data now).1 := by
  by_cases hlead : rn.state = .leader
  · rw [RaftNode.appendEntry_leader hlead]
    exact .extend _ hlead hlead rfl rfl rfl rfl
  · rw [RaftNode.appendEntry_not_leader hlead]
    exact .rest rfl rfl rfl

theorem move_handleAppendEntries {req : AppendRequest} (hsent : (i, req) ∈ s.appendRequests) :
    Move members s (.appendRequest i req) rn (rn.handleAppendEntries .healthy req).1 := by
  rcases rn.handleAppendEntries_cases req with ⟨-, hrn, -⟩ | ⟨hle, hrn, -⟩ |
    ⟨hle, hprev, log, r, hlog, -, -, -, hrn⟩
  · rw [hrn]
    exact .rest rfl rfl rfl
  · rw [hrn]
    exact .follow rfl hle rfl
  · rw [hrn]
    exact .accept req rfl hsent hle hprev rfl rfl hlog

theorem move_handleAppendEntriesResponse {rn' : RaftNode} {peer : String} {req : AppendRequest}
    {resp : AppendResponse} (h : rn.handleAppendEntriesResponse .healthy peer req resp = some rn') :
    Move members s a rn rn' := by
  rcases RaftNode.handleAppendEntriesResponse_cases h with rfl |
    ⟨-, -, -, -, matched, rfl, rfl | ⟨m, e, -, -, -, -, rfl⟩⟩ | ⟨-, -, -, -, rfl⟩ <;>
  exact .rest rfl rfl rfl

end Handlers

/-- **Every step is one move** at its actor and leaves the other nodes alone. -/
theorem step_move {members : List String} {s t : Cluster} {a : Action}
    (hnodup : members.Nodup) (hmesh : Mesh members s.nodes)
    (hstep : Cluster.step members s a = some t) : (∀ j, j ≠ a.actor → t.nodes j = s.nodes j) ∧
      Move members s a (s.nodes a.actor) (t.nodes a.actor) := by
  have hset : ∀ {i rn a}, Move members s a (s.nodes i) rn →
      (∀ j, j ≠ i → (s.setNode i rn).nodes j = s.nodes j) ∧
        Move members s a (s.nodes i) ((s.setNode i rn).nodes i) := by
    intro i rn a hmove
    refine ⟨fun j hj => setNode_ne s rn hj, ?_⟩
    rw [setNode_self]
    exact hmove
  cases Step.of_step hstep with
  | electionTimeout hi =>
    refine hset ?_
    unfold RaftNode.handleElectionTimeout
    split_ifs with hlead
    · exact .rest rfl rfl rfl
    · exact .campaign hi hlead rfl rfl rfl
  | voteRequest => exact hset (move_handleVoteRequest _)
  | voteAnswer _ _ hout =>
    rw [← hout]
    exact hset (move_collectVote _ _ _)
  | appendEntry => exact hset (move_appendEntry _ _ _)
  | appendRequest hsent => exact hset (move_handleAppendEntries hsent)
  | appendResponse _ _ hrn => exact hset (move_handleAppendEntriesResponse hrn)
  | requestVotes | roundTimeout | replicate => exact ⟨fun _ _ => rfl, .rest rfl rfl rfl⟩
  | @restart i =>
    obtain ⟨hstate, hterm, -, hlog⟩ :=
      RaftNode.restart_saved (hmesh.peers_nodup hnodup i) (hmesh.saved i)
    exact hset (.restart rfl hstate hterm hlog)

/-! ## What a step does to the network and the elections -/

section Network

variable {members : List String} {s t : Cluster} {a : Action}

section

variable (hstep : Cluster.step members s a = some t)
include hstep

theorem step_appendRequests {r : String × AppendRequest} (hr : r ∈ t.appendRequests) :
    r ∈ s.appendRequests ∨ ∃ i next, a = .replicate i r.1 next ∧ i ∈ members ∧
      r.1 ∈ (s.nodes i).peers ∧ outgoing (s.nodes i) r.1 next = some r.2 := by
  cases Step.of_step hstep with
  | replicate hi hpeer hreq =>
    rcases mem_cons.mp hr with rfl | hr
    · exact Or.inr ⟨_, _, rfl, hi, hpeer, hreq⟩
    · exact Or.inl hr
  | _ => exact Or.inl hr

/-- Append responses come from nodes that handled a request sent to them. -/
theorem step_appendResponses
    {r : String × AppendRequest × AppendResponse} (hr : r ∈ t.appendResponses) :
    r ∈ s.appendResponses ∨ (a = .appendRequest r.1 r.2.1 ∧ (r.1, r.2.1) ∈ s.appendRequests ∧
      ((s.nodes r.1).handleAppendEntries .healthy r.2.1).2 = some r.2.2 ∧
      t.nodes r.1 = ((s.nodes r.1).handleAppendEntries .healthy r.2.1).1) := by
  cases Step.of_step hstep with
  | appendRequest hsent hresp =>
    rcases mem_cons.mp hr with rfl | hr
    · exact Or.inr ⟨rfl, hsent, hresp, setNode_self _ _ _⟩
    · exact Or.inl hr
  | _ => exact Or.inl hr

theorem step_appendResponses_subset : s.appendResponses ⊆ t.appendResponses := by
  cases Step.of_step hstep with
  | appendRequest => exact subset_cons_self _ _
  | _ => exact List.Subset.refl _

/-- Vote answers come from nodes that handled the request. -/
theorem step_voteAnswers {r : String × VoteRequest × VoteResponse} (hr : r ∈ t.voteAnswers) :
    r ∈ s.voteAnswers ∨ (r.2.2 = ((s.nodes r.1).handleVoteRequest .healthy r.2.1).2 ∧
        t.nodes r.1 = ((s.nodes r.1).handleVoteRequest .healthy r.2.1).1) := by
  cases Step.of_step hstep with
  | voteRequest =>
    rcases mem_cons.mp hr with rfl | hr
    · exact Or.inr ⟨rfl, setNode_self _ _ _⟩
    · exact Or.inl hr
  | _ => exact Or.inl hr

theorem step_voteAnswers_subset : s.voteAnswers ⊆ t.voteAnswers := by
  cases Step.of_step hstep with
  | voteRequest => exact subset_cons_self _ _
  | _ => exact List.Subset.refl _

theorem step_rounds {r : VoteRound} (hr : r ∈ t.rounds) :
    r ∈ s.rounds ∨ (∃ i ∈ s.spawned, r = (s.nodes i).requestVotes ∧ t.nodes i = s.nodes i) ∨
      ∃ round peer granted, a = .voteAnswer round peer granted ∧ round ∈ s.rounds ∧
        peer ∈ round.waiting ∧ r = { round with
          votes := if granted then round.votes + 1 else round.votes
          waiting := round.waiting.erase peer } := by
  cases Step.of_step hstep with
  | requestVotes hi =>
    rcases mem_cons.mp hr with rfl | hr
    · exact Or.inr (Or.inl ⟨_, hi, rfl, rfl⟩)
    · exact Or.inl hr
  | @voteAnswer round peer granted _ hround hpeer hout =>
    rcases mem_append.mp hr with hr | hr
    · rcases (s.nodes round.request.candidateID).collectVote_cases round peer granted with
        ⟨hcases, -⟩ | ⟨-, -, -, hcases⟩ | ⟨-, -, -, hcases⟩ <;>
      rw [hcases] at hout <;> subst hout
      · exact absurd hr (by simp)
      · obtain rfl := mem_singleton.mp hr
        exact Or.inr (Or.inr ⟨round, peer, granted, rfl, hround, hpeer, rfl⟩)
      · exact absurd hr (by simp)
    · exact Or.inl (mem_of_mem_erase hr)
  | roundTimeout => exact Or.inl (mem_of_mem_erase hr)
  | restart => exact Or.inl (mem_filter.mp hr).1
  | _ => exact Or.inl hr

theorem step_spawned {i : String} (hi : i ∈ t.spawned) : i ∈ s.spawned ∨ i ∈ members := by
  cases Step.of_step hstep with
  | electionTimeout hj =>
    split_ifs at hi
    · exact Or.inl hi
    rcases mem_cons.mp hi with rfl | hi
    · exact Or.inr hj
    · exact Or.inl hi
  | requestVotes => exact Or.inl (mem_of_mem_erase hi)
  | restart => exact Or.inl (mem_filter.mp hi).1
  | _ => exact Or.inl hi

end

/-- The answer that makes a candidate leader completes its round. -/
theorem step_win {round : VoteRound} {peer : String} {granted : Bool}
    (hstep : Cluster.step members s (.voteAnswer round peer granted) = some t)
    (hcand : (s.nodes round.request.candidateID).state = .candidate)
    (hlead : (t.nodes round.request.candidateID).state = .leader) :
    round ∈ s.rounds ∧ peer ∈ round.waiting ∧
      (s.nodes round.request.candidateID).currentTerm = round.request.term ∧
      round.majority ≤ if granted then round.votes + 1 else round.votes := by
  cases Step.of_step hstep with
  | voteAnswer hround hpeer hout =>
    rw [show ∀ rs, Cluster.nodes { s.setNode round.request.candidateID _ with rounds := rs }
      round.request.candidateID = _ from fun _ => setNode_self _ _ _] at hlead
    rcases (s.nodes round.request.candidateID).collectVote_cases round peer granted with
      ⟨hcases, -⟩ | ⟨-, -, -, hcases⟩ | ⟨-, hterm, hfull, -⟩
    iterate 2
      rw [← hout, hcases] at hlead
      exact absurd (hcand.symm.trans hlead) (by decide)
    · exact ⟨hround, hpeer, hterm, hfull⟩

end Network

end DistributedKV.Consensus
