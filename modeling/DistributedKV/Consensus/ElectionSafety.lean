import DistributedKV.Lib.Quorum
import DistributedKV.Consensus.Votes
import DistributedKV.Consensus.Cluster

/-!
# At most one leader per term

A cluster elects two leaders of one term in two ways:

- `handleAppendEntries` clears the vote a node gave in the request's own term, so a later vote
  request of that term is granted a second time (`two_leaders_counterexample`);
- `getMajority` is half of the members, not more than half, when their number is even.

Outside of these, every leader ever seen has a majority of grants for its term (`Won`), grants of
one node and term agree (`VoteInv`), and two majorities share a node. The grants are a ghost
history that only grows; `ElectionInv` relates it to the nodes, the rounds and the network. Each
action keeps it (`electionInv_*`), so it holds along every run (`election_safety`).

Elections and votes are `raft.go:371-558`, the cleared vote is in `raft.go:633-745`.
-/

namespace DistributedKV.Consensus

open Lib Function List RaftNode

/-- The votes granted so far, by each node, as (term, candidate). -/
abbrev Grants := String → List (Int × String)

/-- Node `i` has handled an append request of term `T`. -/
def Heard (s : Cluster) (i : String) (T : Int) : Prop :=
  ∃ a ∈ s.appendResponses, a.1 = i ∧ a.2.1.term = T

instance (s : Cluster) (i : String) (T : Int) : Decidable (Heard s i T) := by
  unfold Heard
  infer_instance

/-- A node that has handled an append request of a term is asked for no more votes of that term,
and the `int64` term has room for one more election. -/
def VotesBeforeAppends (s : Cluster) : Action → Prop
  | .voteRequest i req => ¬Heard s i req.term
  | .electionTimeout i => (s.nodes i).currentTerm < 2 ^ 63 - 1
  | _ => True

instance (s : Cluster) : ∀ a, Decidable (VotesBeforeAppends s a) := by
  rintro ⟨⟩ <;> dsimp only [VotesBeforeAppends] <;> infer_instance

/-! ## What votes decide -/

section Won

variable {members : List String} {grants grants' : Grants}

/-- Node `v` has granted the vote that `req` asks for. -/
def Granted (grants : Grants) (v : String) (req : VoteRequest) : Prop :=
  (req.term, req.candidateID) ∈ grants v

/-- A majority granted `i` its vote in term `T`. -/
def Won (members : List String) (grants : Grants) (i : String) (T : Int) : Prop :=
  ∃ V, Majority members V ∧ ∀ v ∈ V, (T, i) ∈ grants v

theorem Won.mono {i : String} {T : Int} (h : Won members grants i T)
    (hg : ∀ v, grants v ⊆ grants' v) : Won members grants' i T := by
  obtain ⟨V, hmaj, hV⟩ := h
  exact ⟨V, hmaj, fun v hv => hg v (hV v hv)⟩

/-- **A term has one winner**, if no node grants two votes in a term. -/
theorem Won.unique {i j : String} {T : Int} (hone : ∀ v, OneVotePerTerm (grants v))
    (hi : Won members grants i T) (hj : Won members grants j T) : i = j := by
  obtain ⟨V, hV, hVi⟩ := hi
  obtain ⟨W, hW, hWj⟩ := hj
  obtain ⟨v, hvV, hvW⟩ := hV.intersect hW
  exact hone v (T, i) (hVi v hvV) (T, j) (hWj v hvW) rfl

end Won

/-! ## Counting votes -/

section RoundInv

variable {members : List String} {granted granted' : String → VoteRequest → Prop}
  {round : VoteRound}

/-- What a round counts: the candidate, and peers no longer waited for that granted its request.
-/
structure RoundInv (members : List String) (granted : String → VoteRequest → Prop)
    (round : VoteRound) : Prop where
  candidate : round.request.candidateID ∈ members
  majority : round.majority = (members.length + 1) / 2
  counted : ∃ V, (round.request.candidateID :: (V ++ round.waiting)).Nodup ∧
    V ⊆ members ∧ round.votes ≤ V.length + 1 ∧ ∀ v ∈ V, granted v round.request
  waiting : round.waiting ⊆ members

theorem RoundInv.mono (h : RoundInv members granted round)
    (hg : ∀ v req, granted v req → granted' v req) : RoundInv members granted' round where
  candidate := h.candidate
  majority := h.majority
  counted := by
    obtain ⟨V, hnodup, hsub, hvotes, hV⟩ := h.counted
    exact ⟨V, hnodup, hsub, hvotes, fun v hv => hg v _ (hV v hv)⟩
  waiting := h.waiting

/-- A new round has counted the candidate's own vote. -/
theorem roundInv_requestVotes {s : Cluster} (hmesh : Mesh members s.nodes)
    (hnodup : members.Nodup) {i : String} (hi : i ∈ members) :
    RoundInv members granted (s.nodes i).requestVotes where
  candidate := by
    show (s.nodes i).id ∈ members
    rw [hmesh.id]
    exact hi
  majority := by
    show ((s.nodes i).peers.length + 2) / 2 = _
    rw [hmesh.peers, ← meshPeers_length hnodup hi]
  counted := by
    refine ⟨[], ?_, nil_subset _, le_refl _, by simp⟩
    show ((s.nodes i).id :: (s.nodes i).peers).Nodup
    rw [hmesh.id, hmesh.peers]
    refine nodup_cons.mpr ⟨?_, meshPeers_nodup hnodup i⟩
    rw [mem_meshPeers]
    exact fun h => h.2 rfl
  waiting := by
    show (s.nodes i).peers ⊆ members
    rw [hmesh.peers]
    exact fun j hj => (mem_meshPeers.mp hj).1

/-- Taking one answer: a peer that granted its vote is counted and no longer waited for. -/
theorem RoundInv.answer {peer : String} {yes : Bool} (h : RoundInv members granted round)
    (hpeer : peer ∈ round.waiting) (hgrant : yes = true → granted peer round.request) :
    RoundInv members granted { round with
      votes := if yes then round.votes + 1 else round.votes
      waiting := round.waiting.erase peer } := by
  obtain ⟨V, hnodup, hsub, hvotes, hV⟩ := h.counted
  have hwait : round.waiting.erase peer ⊆ members :=
    fun v hv => h.waiting (mem_of_mem_erase hv)
  cases yes with
  | false =>
    refine ⟨h.candidate, h.majority, ⟨V, ?_, hsub, hvotes, hV⟩, hwait⟩
    exact hnodup.sublist
      (Sublist.cons_cons _ ((List.Sublist.refl V).append erase_sublist))
  | true =>
    refine ⟨h.candidate, h.majority, ⟨peer :: V, ?_, ?_, ?_, ?_⟩, hwait⟩
    · -- the same names in another order
      refine (Perm.nodup_iff (List.Perm.cons _ ?_)).mp hnodup
      exact (Perm.append_left V (perm_cons_erase hpeer)).trans perm_middle
    · exact cons_subset.mpr ⟨h.waiting hpeer, hsub⟩
    · show round.votes + 1 ≤ (peer :: V).length + 1
      rw [length_cons]
      omega
    exact forall_mem_cons.mpr ⟨hgrant rfl, hV⟩

/-- **A full count is a majority**, with the candidate's own vote, in a cluster of odd size. -/
theorem RoundInv.quorum (h : RoundInv members granted round) (hodd : members.length % 2 = 1)
    (hfull : round.majority ≤ round.votes) :
    ∃ V, Majority members (round.request.candidateID :: V) ∧ ∀ v ∈ V, granted v round.request := by
  obtain ⟨V, hnodup, hsub, hvotes, hV⟩ := h.counted
  have hmaj := h.majority
  refine ⟨V, ⟨?_, ?_, ?_⟩, hV⟩
  · exact hnodup.sublist (Sublist.cons_cons _ (sublist_append_left _ _))
  · exact cons_subset.mpr ⟨h.candidate, hsub⟩
  · rw [length_cons]
    omega

end RoundInv

/-! ## The invariant -/

/-- The ghost history of grants explains every vote, candidate, round and leader. -/
structure ElectionInv (members : List String) (grants : Grants) (s : Cluster) : Prop where
  mesh : Mesh members s.nodes
  votes : ∀ i, VoteInv (s.nodes i) (grants i) (Heard s i)
  spawned : ∀ i ∈ s.spawned, i ∈ members
  requests : ∀ r ∈ s.voteRequests, r.2.candidateID ∈ members
  answers : ∀ a ∈ s.voteAnswers, a.2.2.voteGranted = true →
    (a.2.1.term, a.2.1.candidateID) ∈ grants a.1
  candidates : ∀ i, (s.nodes i).state = .candidate → ((s.nodes i).currentTerm, i) ∈ grants i
  rounds : ∀ r ∈ s.rounds, RoundInv members (Granted grants) r
  leaders : ∀ i, (s.nodes i).state = .leader → Won members grants i (s.nodes i).currentTerm

section ElectionInv

variable {members : List String} {grants : Grants} {s t : Cluster} {i : String}

open Cluster

theorem electionInv_init (hnodup : members.Nodup) :
    ElectionInv members (fun _ => []) (init members) where
  mesh := mesh_init hnodup
  votes i := by
    rw [init_nodes hnodup]
    refine ⟨rfl, ?_, ?_, ?_⟩ <;> simp [OneVotePerTerm]
  spawned := by simp [init]
  requests := by simp [init]
  answers := by simp [init]
  candidates i h := by
    rw [init_nodes hnodup] at h
    exact absurd h (by simp [newRaftNode])
  rounds := by simp [init]
  leaders i h := by
    rw [init_nodes hnodup] at h
    exact absurd h (by simp [newRaftNode])

variable {granted : List (Int × String)} {rn : RaftNode} {peer : String} {req : AppendRequest}
  {resp : AppendResponse}

theorem subset_update (hgrow : grants i ⊆ granted) :
    ∀ v, grants v ⊆ Function.update grants i granted v :=
  (forall_update_iff grants fun v granted => grants v ⊆ granted).mpr
    ⟨hgrow, fun _ _ => List.Subset.refl _⟩

section

variable (h : ElectionInv members grants s)
include h

section

variable (hconf : RaftNode.SameConfig (s.nodes i) rn)
include hconf

/-- One node changes and perhaps grants votes; everything else stays. -/
theorem ElectionInv.grantNode (hgrow : grants i ⊆ granted) (hvotes : VoteInv rn granted (Heard s i))
    (hcand : rn.state = .candidate → (rn.currentTerm, i) ∈ granted)
    (hlead : rn.state = .leader → Won members (Function.update grants i granted) i rn.currentTerm) :
    ElectionInv members (Function.update grants i granted) (s.setNode i rn) := by
  have hmono := subset_update hgrow
  refine ⟨h.mesh.setNode hconf, ?_, h.spawned, h.requests, ?_, ?_, ?_, ?_⟩
  · intro j
    by_cases hj : j = i
    · subst hj
      rw [setNode_self, update_self]
      exact hvotes
    · rw [setNode_ne s rn hj, update_of_ne hj]
      exact h.votes j
  · exact fun a ha hyes => hmono _ (h.answers a ha hyes)
  · refine forall_setNode (P := fun j rn => rn.state = .candidate →
      (rn.currentTerm, j) ∈ Function.update grants i granted j)
      (fun j hj => hmono j (h.candidates j hj)) ?_
    rw [update_self]
    exact hcand
  · exact fun r hr => (h.rounds r hr).mono fun v _ hv => hmono v hv
  · exact forall_setNode (P := fun j rn => rn.state = .leader →
      Won members (Function.update grants i granted) j rn.currentTerm)
      (fun j hj => (h.leaders j hj).mono hmono) hlead

/-- One node changes and no message: what the invariant says of this node is enough. -/
theorem ElectionInv.node (hvotes : VoteInv rn (grants i) (Heard s i))
    (hcand : rn.state = .candidate → (rn.currentTerm, i) ∈ grants i)
    (hlead : rn.state = .leader → Won members grants i rn.currentTerm) :
    ElectionInv members grants (s.setNode i rn) := by
  have := h.grantNode hconf (List.Subset.refl _) hvotes hcand
    (by rw [update_eq_self]; exact hlead)
  rwa [update_eq_self] at this

/-- A change that leaves term, state and vote alone. -/
theorem ElectionInv.inert
    (hterm : rn.currentTerm = (s.nodes i).currentTerm) (hstate : rn.state = (s.nodes i).state)
    (hvote : rn.votedFor = (s.nodes i).votedFor)
    (hfile : rn.persistence = (s.nodes i).persistence) :
    ElectionInv members grants (s.setNode i rn) := by
  refine h.node hconf ((h.votes i).keep hterm hvote (by rw [hfile])) ?_ ?_ <;> rw [hterm, hstate]
  · exact h.candidates i
  · exact h.leaders i

/-! ## One step -/

end

/-- A candidate grants itself its vote in a term that is new to it. -/
theorem electionInv_electionTimeout (hname : i ≠ "") : ∃ grants', (∀ v, grants v ⊆ grants' v) ∧
      ElectionInv members grants' (s.setNode i ((s.nodes i).handleElectionTimeout .healthy)) := by
  unfold RaftNode.handleElectionTimeout
  split_ifs with hlead
  · exact ⟨grants, fun v => List.Subset.refl _, h.inert ⟨rfl, rfl, fun h => h⟩ rfl rfl rfl rfl⟩
  refine ⟨_, ?_, h.grantNode ⟨rfl, rfl, fun _ => rfl⟩ (subset_cons_self _ _)
    ((h.votes i).startElection (by rw [h.mesh.id]; exact hname)) ?_ ?_⟩
  · exact subset_update (subset_cons_self _ _)
  · intro _
    rw [h.mesh.id]
    exact mem_cons_self ..
  · intro hl
    cases hl

/-- The goroutine of a candidate begins its round. -/
theorem electionInv_requestVotes (hnodup : members.Nodup) (hi : i ∈ s.spawned) :
    ElectionInv members grants { s with
      spawned := s.spawned.erase i
      rounds := (s.nodes i).requestVotes :: s.rounds
      voteRequests := (s.nodes i).requestVotes.waiting.map
        (fun p => (p, (s.nodes i).requestVotes.request)) ++ s.voteRequests } := by
  have hmem := h.spawned i hi
  refine { h with spawned := ?_, rounds := ?_, requests := ?_ }
  · exact fun j hj => h.spawned j (mem_of_mem_erase hj)
  · intro r hr
    rcases mem_append.mp hr with hr | hr
    · obtain ⟨p, -, rfl⟩ := mem_map.mp hr
      show (s.nodes i).id ∈ members
      rw [h.mesh.id]
      exact hmem
    · exact h.requests r hr
  · exact forall_mem_cons.mpr ⟨roundInv_requestVotes h.mesh hnodup hmem, h.rounds⟩

/-- A granted vote joins the grants: it is the first of its term, as no append has cleared one. -/
theorem electionInv_voteRequest {req : VoteRequest}
    (hname : req.candidateID ≠ "") (hkept : ¬Heard s i req.term) :
    ∃ grants', (∀ v, grants v ⊆ grants' v) ∧
      (((s.nodes i).handleVoteRequest .healthy req).2.voteGranted = true →
        (req.term, req.candidateID) ∈ grants' i) ∧ ElectionInv members grants'
        (s.setNode i ((s.nodes i).handleVoteRequest .healthy req).1) := by
  have hvotes := (h.votes i).handleVoteRequest hname hkept
  have hconf := sameConfig_handleVoteRequest (s.nodes i) req
  rcases (s.nodes i).handleVoteRequest_cases req with ⟨hrn, hno⟩ | ⟨-, hrn, hno⟩ |
    ⟨hyes, hle, -, -, hrn⟩
  · rw [hrn, hno] at hvotes
    rw [hrn, hno]
    exact ⟨grants, fun v => List.Subset.refl _, fun hyes => absurd hyes (by decide),
      h.inert ⟨rfl, rfl, fun h => h⟩ rfl rfl rfl rfl⟩
  · rw [hno] at hvotes
    rw [hno]
    refine ⟨grants, fun v => List.Subset.refl _, fun hyes => absurd hyes (by decide),
      h.node hconf hvotes ?_ ?_⟩
    · intro hc
      rw [hrn] at hc
      exact absurd hc (by simp [stepDown_eq])
    intro hl
    rw [hrn] at hl
    exact absurd hl (by simp [stepDown_eq])
  rw [hyes, if_pos rfl] at hvotes
  have hsub := subset_cons_self (req.term, req.candidateID) (grants i)
  -- a candidate or leader that still grants a vote is one of the request's term
  have hsame : ∀ role, role ≠ RaftState.follower →
      ((s.nodes i).handleVoteRequest .healthy req).1.state = role →
        (s.nodes i).state = role ∧ req.term = (s.nodes i).currentTerm := by
    intro role hrole hst
    rw [hrn] at hst
    split_ifs at hst with hnew
    · exact absurd hst.symm hrole
    · exact ⟨hst, by omega⟩
  refine ⟨_, subset_update hsub, ?_, h.grantNode hconf hsub hvotes ?_ ?_⟩
  · intro _
    rw [update_self]
    exact mem_cons_self ..
  · intro hc
    obtain ⟨hst, hterm⟩ := hsame .candidate (by decide) hc
    rw [hrn]
    rw [hterm]
    exact mem_cons_of_mem _ (h.candidates i hst)
  intro hl
  obtain ⟨hst, hterm⟩ := hsame .leader (by decide) hl
  rw [hrn]
  have hwon := (h.leaders i hst).mono (subset_update hsub)
  rwa [← hterm] at hwon

/-- The answer that completes a majority makes a leader that has won. -/
theorem electionInv_voteAnswer {round : VoteRound} {granted : Bool}
    {out : RaftNode × Option VoteRound}
    (hodd : members.length % 2 = 1) (hround : round ∈ s.rounds) (hpeer : peer ∈ round.waiting)
    (hgrant : granted = true → (round.request.term, round.request.candidateID) ∈ grants peer)
    (hcollected : (s.nodes round.request.candidateID).collectVote .healthy round
      ⟨round.request.term, granted, peer⟩ = out) :
    ElectionInv members grants { s.setNode round.request.candidateID out.1 with
      rounds := out.2.toList ++ s.rounds.erase round } := by
  have hleft : ∀ r ∈ s.rounds.erase round, RoundInv members (Granted grants) r :=
    fun r hr => h.rounds r (mem_of_mem_erase hr)
  have hanswer := (h.rounds round hround).answer hpeer hgrant
  rcases (s.nodes round.request.candidateID).collectVote_cases round peer granted with
    ⟨hout, -⟩ | ⟨-, -, -, hout⟩ | ⟨hcand, hterm, hfull, hout⟩ <;>
  obtain rfl := hout.symm.trans hcollected
  · -- the node moved on: the round just ends
    exact { h.inert (i := round.request.candidateID) (.refl _) rfl rfl rfl rfl with
      rounds := hleft }
  · exact { h.inert (i := round.request.candidateID) (.refl _) rfl rfl rfl rfl with
      rounds := forall_mem_cons.mpr ⟨hanswer, hleft⟩ }
  -- a majority: the candidate becomes leader
  have hself := h.candidates _ hcand
  rw [hterm] at hself
  obtain ⟨V, hmaj, hV⟩ := hanswer.quorum hodd hfull
  have hwon : Won members grants round.request.candidateID round.request.term :=
    ⟨_, hmaj, forall_mem_cons.mpr ⟨hself, hV⟩⟩
  have hleads : ElectionInv members grants (s.setNode round.request.candidateID
      (s.nodes round.request.candidateID).becomeLeader) := by
    refine h.node ⟨rfl, rfl, fun h => h⟩ ((h.votes _).keep rfl rfl rfl) ?_ ?_
    · intro hc
      exact absurd hc (by simp [RaftNode.becomeLeader])
    intro _
    show Won members grants _ (s.nodes round.request.candidateID).currentTerm
    rw [hterm]
    exact hwon
  exact { hleads with rounds := hleft }

/-- An append may clear the vote of its term, which counts as heard from then on. -/
theorem electionInv_appendRequest : ElectionInv members grants
      { s.setNode i ((s.nodes i).handleAppendEntries .healthy req).1 with
        appendResponses := (i, req, resp) :: s.appendResponses } := by
  -- the answer is noted first: from then on the term counts as heard
  have hnoted : ElectionInv members grants
      { s with appendResponses := (i, req, resp) :: s.appendResponses } := by
    refine { h with votes := ?_ }
    intro j
    refine (h.votes j).mono ?_
    rintro T ⟨a, ha, hT⟩
    exact ⟨a, mem_cons_of_mem _ ha, hT⟩
  have hvotes : VoteInv ((s.nodes i).handleAppendEntries .healthy req).1 (grants i)
      (Heard { s with appendResponses := (i, req, resp) :: s.appendResponses } i) :=
    (hnoted.votes i).handleAppendEntries fun _ _ =>
      ⟨(i, req, resp), mem_cons_self .., rfl, rfl⟩
  -- the node was not touched or is a follower now
  have hsame : ((s.nodes i).handleAppendEntries .healthy req).1 = s.nodes i ∨
      ((s.nodes i).handleAppendEntries .healthy req).1.state = .follower := by
    rcases (s.nodes i).handleAppendEntries_cases req with ⟨-, hrn, -⟩ | ⟨-, hrn, -⟩ |
      ⟨-, -, log, r, -, -, -, -, hrn⟩
    · exact Or.inl hrn
    · exact Or.inr (by rw [hrn]; rfl)
    · exact Or.inr (by rw [hrn]; rfl)
  refine hnoted.node (sameConfig_handleAppendEntries (s.nodes i) req) hvotes ?_ ?_ <;> intro hst
  · rcases hsame with hrn | hfollower
    · rw [hrn] at hst ⊢
      exact h.candidates i hst
    · exact absurd (hst.symm.trans hfollower) (by decide)
  rcases hsame with hrn | hfollower
  · rw [hrn] at hst ⊢
    exact h.leaders i hst
  · exact absurd (hst.symm.trans hfollower) (by decide)

/-- A node comes back with the vote of its file and without its rounds. -/
theorem electionInv_restart (hnodup : members.Nodup) :
    ElectionInv members grants { s.setNode i (s.nodes i).restart with
      spawned := s.spawned.filter fun j => j ≠ i
      rounds := s.rounds.filter fun r => r.request.candidateID ≠ i } := by
  have hpeers := h.mesh.peers_nodup hnodup i
  have hfollower : (s.nodes i).restart.state = .follower := by
    rw [restart_eq hpeers]
    rfl
  refine { h.node (sameConfig_restart hpeers)
    ((h.votes i).restart hpeers) (fun hc => ?_) (fun hl => ?_) with
      spawned := ?_, rounds := ?_ }
  · exact absurd (hc.symm.trans hfollower) (by decide)
  · exact absurd (hl.symm.trans hfollower) (by decide)
  · exact fun j hj => h.spawned j (mem_filter.mp hj).1
  · exact fun r hr => h.rounds r (mem_filter.mp hr).1

theorem electionInv_appendEntry (entryType : String)
    (data : List UInt8) (now : Int) : ElectionInv members grants
      (s.setNode i ((s.nodes i).appendEntry .healthy entryType data now).1) := by
  by_cases hlead : (s.nodes i).state = .leader
  · rw [appendEntry_leader hlead]
    exact h.inert ⟨rfl, rfl, fun h => h⟩ rfl rfl rfl rfl
  · rw [appendEntry_not_leader hlead]
    exact h.inert ⟨rfl, rfl, fun h => h⟩ rfl rfl rfl rfl

theorem electionInv_appendResponse
    (hrn : (s.nodes i).handleAppendEntriesResponse .healthy peer req resp = some rn) :
    ElectionInv members grants (s.setNode i rn) := by
  have hconf := sameConfig_handleAppendEntriesResponse hrn
  rcases handleAppendEntriesResponse_cases hrn with rfl |
    ⟨-, -, -, -, matched, rfl, rfl | ⟨m, e, -, -, -, -, rfl⟩⟩ | ⟨-, -, -, -, rfl⟩ <;>
  exact h.inert hconf rfl rfl rfl rfl

end

/-- **One step.** The grants only grow, and they still explain the cluster. -/
theorem electionInv_step {a : Action} (hnodup : members.Nodup)
    (hodd : members.length % 2 = 1) (hname : "" ∉ members) (h : ElectionInv members grants s)
    (hgen : Genuine s a) (hsafe : VotesBeforeAppends s a) (hstep : step members s a = some t) :
    ∃ grants', (∀ v, grants v ⊆ grants' v) ∧ ElectionInv members grants' t := by
  have hstay : ∀ {u}, ElectionInv members grants u →
      ∃ grants', (∀ v, grants v ⊆ grants' v) ∧ ElectionInv members grants' u :=
    fun hu => ⟨grants, fun v => List.Subset.refl _, hu⟩
  have hne : ∀ {j}, j ∈ members → j ≠ "" := fun hj heq => hname (heq ▸ hj)
  -- only a timeout and a vote request make nodes vote
  cases Step.of_step hstep with
  | electionTimeout hi =>
    obtain ⟨grants', hgrow, h'⟩ := electionInv_electionTimeout h (hne hi)
    refine ⟨grants', hgrow, { h' with spawned := ?_ }⟩
    intro j hj
    split_ifs at hj
    · exact h.spawned j hj
    rcases mem_cons.mp hj with rfl | hj
    · exact hi
    · exact h.spawned j hj
  | requestVotes hi => exact hstay (electionInv_requestVotes h hnodup hi)
  | voteRequest =>
    obtain ⟨grants', hgrow, hgrant, h'⟩ :=
      electionInv_voteRequest h (hne (h.requests _ hgen)) hsafe
    exact ⟨grants', hgrow, { h' with answers := forall_mem_cons.mpr ⟨hgrant, h'.answers⟩ }⟩
  | voteAnswer hround hpeer hout =>
    obtain ⟨a, ha, rfl, hreq, hgranted⟩ := hgen
    refine hstay (electionInv_voteAnswer h hodd hround hpeer ?_ hout)
    intro hyes
    rw [← hreq]
    exact h.answers a ha (hgranted.trans hyes)
  | roundTimeout =>
    exact hstay { h with rounds := fun r hr => h.rounds r (mem_of_mem_erase hr) }
  | appendEntry => exact hstay (electionInv_appendEntry h _ _ _)
  | replicate => exact hstay { h with }
  | appendRequest => exact hstay (electionInv_appendRequest h)
  | appendResponse _ _ hrn => exact hstay (electionInv_appendResponse h hrn)
  | restart => exact hstay (electionInv_restart h hnodup)

end ElectionInv

/-! ## Whole runs -/

/-- Every leader that any of the states shows has won its term. -/
def LeadersWon (members : List String) (grants : Grants) (states : List Cluster) : Prop :=
  ∀ s ∈ states, ∀ i, (s.nodes i).state = .leader → Won members grants i (s.nodes i).currentTerm

/-- Along a run the grants explain the last state and all leaders on the way. -/
theorem electionInv_run {members : List String} (hnodup : members.Nodup)
    (hodd : members.length % 2 = 1) (hname : "" ∉ members) :
    ∀ acts t, Cluster.Along members (fun s a => Genuine s a ∧ VotesBeforeAppends s a) acts →
      Cluster.run members acts = some t → ∃ grants, ElectionInv members grants t ∧
        LeadersWon members grants (Cluster.states members acts) := by
  refine Lts.trace_induction ?_ ?_
  · have h₀ := electionInv_init hnodup
    refine ⟨_, h₀, ?_⟩
    intro s hs
    obtain rfl : s = Cluster.init members := by simpa [Lts.trace] using hs
    exact h₀.leaders
  rintro acts a t u - hrun ⟨grants, h, hwon⟩ ⟨hgen, hsafe⟩ hstep
  obtain ⟨grants', hgrow, h'⟩ := electionInv_step hnodup hodd hname h hgen hsafe hstep
  refine ⟨grants', h', ?_⟩
  rw [LeadersWon, Cluster.states_concat hrun hstep]
  exact forall_mem_append.mpr ⟨fun s hs i hi => (hwon s hs i hi).mono hgrow,
    forall_mem_singleton.mpr h'.leaders⟩

/-- **Election safety.** In a cluster of odd size, over every interleaving of timeouts, messages
and restarts in which no node is asked for a vote of a term whose append request it has handled,
no two members are ever leader of one term. -/
theorem election_safety (members : List String) (acts : List Action)
    (hnodup : members.Nodup) (hodd : members.length % 2 = 1) (hname : "" ∉ members)
    (hrun : Cluster.Along members (fun s a => Genuine s a ∧ VotesBeforeAppends s a) acts) :
    UniqueLeaders members (Cluster.states members acts) := by
  obtain ⟨pre, t, hpre, hexec, hstates⟩ := Lts.exists_enabled_part (Cluster.init members) acts
  obtain ⟨grants, h, hwon⟩ :=
    electionInv_run hnodup hodd hname pre t (hrun.restrict hpre) hexec
  rw [Cluster.states, hstates]
  intro s hs s' hs' i _ j _ hi hj hterm
  have hwi := hwon s hs i hi
  have hwj := hwon s' hs' j hj
  rw [← hterm] at hwj
  exact Won.unique (fun v => (h.votes v).unique) hwi hwj

/-- Two elections with an append request and a restart between them. -/
def electionRun : List Action :=
  let first : VoteRequest := ⟨1, "n1", 0, 0⟩
  let second : VoteRequest := ⟨2, "n2", 0, 0⟩
  [.electionTimeout "n1", .requestVotes "n1", .voteRequest "n2" first,
    .voteAnswer ⟨first, ["n2", "n3"], 1, 2⟩ "n2" true, .replicate "n1" "n2" none,
    .appendRequest "n2" ⟨1, "n1", 0, 0, [], 0⟩, .restart "n1",
    .electionTimeout "n2", .requestVotes "n2", .voteRequest "n3" second,
    .voteAnswer ⟨second, ["n1", "n3"], 1, 2⟩ "n3" true]

/-- The run elects `n1` in term 1 and `n2` in term 2. -/
theorem election_safety_electionRun : ((Cluster.states ["n1", "n2", "n3"] electionRun).map fun s =>
        (["n1", "n2", "n3"].filter fun i => (s.nodes i).state = .leader).map fun i =>
          (i, (s.nodes i).currentTerm)) =
      [[], [], [], [], [("n1", 1)], [("n1", 1)], [("n1", 1)], [], [], [], [], [("n2", 2)]] ∧
    UniqueLeaders ["n1", "n2", "n3"] (Cluster.states ["n1", "n2", "n3"] electionRun) :=
  ⟨by decide +kernel, election_safety _ _ (by decide) (by decide) (by decide)
    (by decide +kernel)⟩

/-- The size has to be odd: of two members each becomes leader of term 1, although the other one
refused its vote. -/
example :
    let run : List Action :=
      [.electionTimeout "n1", .requestVotes "n1", .electionTimeout "n2", .requestVotes "n2",
        .voteRequest "n2" ⟨1, "n1", 0, 0⟩, .voteRequest "n1" ⟨1, "n2", 0, 0⟩,
        .voteAnswer ⟨⟨1, "n1", 0, 0⟩, ["n2"], 1, 1⟩ "n2" false,
        .voteAnswer ⟨⟨1, "n2", 0, 0⟩, ["n1"], 1, 1⟩ "n1" false]
    Cluster.Along ["n1", "n2"] (fun s a => Genuine s a ∧ VotesBeforeAppends s a) run ∧
      ¬UniqueLeaders ["n1", "n2"] (Cluster.states ["n1", "n2"] run) := by
  decide +kernel

/-- `n1` wins term 1 with the vote of `n2`, which its first append request makes `n2` forget, so
the delayed request of `n3` is granted in term 1 as well. -/
def twoLeadersRun : List Action :=
  let fromN1 : VoteRequest := ⟨1, "n1", 0, 0⟩
  let fromN3 : VoteRequest := ⟨1, "n3", 0, 0⟩
  [.electionTimeout "n1", .requestVotes "n1", .electionTimeout "n3", .requestVotes "n3",
    .voteRequest "n2" fromN1, .voteAnswer ⟨fromN1, ["n2", "n3"], 1, 2⟩ "n2" true,
    .replicate "n1" "n2" none, .appendRequest "n2" ⟨1, "n1", 0, 0, [], 0⟩,
    .voteRequest "n2" fromN3, .voteAnswer ⟨fromN3, ["n1", "n2"], 1, 2⟩ "n2" true]

/-- **Two leaders of one term**, in one state of a run with a genuine transport. -/
theorem two_leaders_counterexample : Cluster.Along ["n1", "n2", "n3"] Genuine twoLeadersRun ∧
    (∃ s ∈ Cluster.states ["n1", "n2", "n3"] twoLeadersRun, Leads s "n1" 1 ∧ Leads s "n3" 1) ∧
    ¬UniqueLeaders ["n1", "n2", "n3"] (Cluster.states ["n1", "n2", "n3"] twoLeadersRun) := by
  refine ⟨by decide +kernel, ?_, by decide +kernel⟩
  exact ⟨_, mem_of_getLast? rfl, by unfold Leads; decide +kernel,
    by unfold Leads; decide +kernel⟩

end DistributedKV.Consensus
