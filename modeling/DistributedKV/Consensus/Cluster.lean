import DistributedKV.Lib.Lts
import DistributedKV.Consensus.NodeSpec

/-!
# A cluster of Raft nodes and its network

Membership is fixed and the mesh is full. The network is a growing collection of messages; a step
may deliver any of them, at any time and any number of times, so delay, loss, reordering and
duplication need no steps of their own.

One action of `Cluster.step` is one section that the source runs under a node's lock, or the
start or end of a goroutine:

- `electionTimeout`, `requestVotes`, `voteRequest`, `voteAnswer`, `roundTimeout`:
  `handleElectionTimeout`, the start of the goroutine it spawns, `handleVoteRequest`, one turn of
  the collecting loop, and its timeout;
- `appendEntry`, `replicate`, `appendRequest`, `appendResponse`: `AppendEntry`, the request built
  by `replicateToFollower`, `handleAppendEntries` and `handleAppendEntriesResponse`;
- `restart`: the process dies with its goroutines and comes back from its files.

The source stubs its transport with random answers, so `Cluster.step` lets an action carry any
answer. `Genuine` is the transport the stubs stand for. Every disk write succeeds.
-/

namespace DistributedKV.Consensus

variable (members : List String)

open RaftNode

/-- All nodes, the running `requestVotes` goroutines (`spawned`: not yet scheduled) and every
message sent so far, a request with its destination, an answer with its sender and request. -/
structure Cluster where
  nodes : String → RaftNode
  spawned : List String
  rounds : List VoteRound
  voteRequests : List (String × VoteRequest)
  voteAnswers : List (String × VoteRequest × VoteResponse)
  appendRequests : List (String × AppendRequest)
  appendResponses : List (String × AppendRequest × AppendResponse)

/-- The actions of a cluster. -/
inductive Action where
  | electionTimeout (i : String)
  | requestVotes (i : String)
  | voteRequest (i : String) (req : VoteRequest)
  | voteAnswer (round : VoteRound) (peer : String) (granted : Bool)
  | roundTimeout (round : VoteRound)
  | appendEntry (i : String) (entryType : String) (data : List UInt8) (now : Int)
  | replicate (i peer : String) (next : Option Int)
  | appendRequest (i : String) (req : AppendRequest)
  | appendResponse (i peer : String) (req : AppendRequest) (resp : AppendResponse)
  | restart (i : String)

/-- The peers of a member in the full mesh. -/
def meshPeers (i : String) : List String :=
  members.filter fun j => j ≠ i

/-- The cluster right after `Bootstrap` on empty directories. -/
def Cluster.init : Cluster where
  nodes i := (meshPeers members i).foldl RaftNode.addPeer (newRaftNode i .none)
  spawned := []
  rounds := []
  voteRequests := []
  voteAnswers := []
  appendRequests := []
  appendResponses := []

/-- Replace the state of one node. -/
def Cluster.setNode (s : Cluster) (i : String) (rn : RaftNode) : Cluster :=
  { s with nodes := Function.update s.nodes i rn }

/-- The request a `replicate` action sends: for `none` the one of `replicateToFollower`, for
`some n` the one it would build had `nextIndex` the value `n`, from 1 to last index + 1. -/
def outgoing (rn : RaftNode) (peer : String) : Option Int → Option AppendRequest
  | none => rn.replicateToFollower peer
  | some n =>
    if rn.state = .leader ∧ 1 ≤ n ∧ n ≤ rn.getLastLogIndex + 1 then rn.buildAppendRequest n
    else none

/-- One step of the cluster. -/
def Cluster.step (s : Cluster) : Action → Option Cluster
  | .electionTimeout i =>
    if i ∈ members then
      some { s.setNode i ((s.nodes i).handleElectionTimeout .healthy) with
        spawned := if (s.nodes i).state = .leader then s.spawned else i :: s.spawned }
    else none
  | .requestVotes i =>
    if i ∈ s.spawned then
      let round := (s.nodes i).requestVotes
      some { s with
        spawned := s.spawned.erase i
        rounds := round :: s.rounds
        voteRequests := round.waiting.map (fun p => (p, round.request)) ++ s.voteRequests }
    else none
  | .voteRequest i req =>
    if i ∈ members then
      let out := (s.nodes i).handleVoteRequest .healthy req
      some { s.setNode i out.1 with voteAnswers := (i, req, out.2) :: s.voteAnswers }
    else none
  | .voteAnswer round peer granted =>
    if round ∈ s.rounds ∧ peer ∈ round.waiting then
      let i := round.request.candidateID
      -- the goroutine wraps the peer's verdict in a response of its own term
      let response : VoteResponse :=
        { term := round.request.term, voteGranted := granted, nodeID := peer }
      let out := (s.nodes i).collectVote .healthy round response
      some { s.setNode i out.1 with rounds := out.2.toList ++ s.rounds.erase round }
    else none
  | .roundTimeout round =>
    if round ∈ s.rounds then some { s with rounds := s.rounds.erase round } else none
  | .appendEntry i entryType data now =>
    if i ∈ members then
      some (s.setNode i ((s.nodes i).appendEntry .healthy entryType data now).1)
    else none
  | .replicate i peer next =>
    if i ∈ members ∧ peer ∈ (s.nodes i).peers then
      (outgoing (s.nodes i) peer next).map fun req =>
        { s with appendRequests := (peer, req) :: s.appendRequests }
    else none
  | .appendRequest i req =>
    if (i, req) ∈ s.appendRequests then
      let out := (s.nodes i).handleAppendEntries .healthy req
      out.2.map fun resp =>
        { s.setNode i out.1 with appendResponses := (i, req, resp) :: s.appendResponses }
    else none
  | .appendResponse i peer req resp =>
    if i ∈ members ∧ peer ∈ (s.nodes i).peers then
      ((s.nodes i).handleAppendEntriesResponse .healthy peer req resp).map (s.setNode i)
    else none
  | .restart i =>
    if i ∈ members then
      some { s.setNode i (s.nodes i).restart with
        spawned := s.spawned.filter fun j => j ≠ i
        rounds := s.rounds.filter fun r => r.request.candidateID ≠ i }
    else none

/-- The same step as a relation: what each action needs and the cluster it leaves. -/
inductive Cluster.Step (members : List String) (s : Cluster) : Action → Cluster → Prop
  | electionTimeout {i : String} (member : i ∈ members) : Step members s (.electionTimeout i)
      { s.setNode i ((s.nodes i).handleElectionTimeout .healthy) with
        spawned := if (s.nodes i).state = .leader then s.spawned else i :: s.spawned }
  | requestVotes {i : String} (spawned : i ∈ s.spawned) : Step members s (.requestVotes i)
      { s with
        spawned := s.spawned.erase i
        rounds := (s.nodes i).requestVotes :: s.rounds
        voteRequests := (s.nodes i).requestVotes.waiting.map
          (fun p => (p, (s.nodes i).requestVotes.request)) ++ s.voteRequests }
  | voteRequest {i : String} {req : VoteRequest} (member : i ∈ members) :
      Step members s (.voteRequest i req)
        { s.setNode i ((s.nodes i).handleVoteRequest .healthy req).1 with
          voteAnswers := (i, req, ((s.nodes i).handleVoteRequest .healthy req).2) ::
            s.voteAnswers }
  | voteAnswer {round : VoteRound} {peer : String} {granted : Bool}
      {out : RaftNode × Option VoteRound} (running : round ∈ s.rounds)
      (waiting : peer ∈ round.waiting)
      (collected : (s.nodes round.request.candidateID).collectVote .healthy round
        ⟨round.request.term, granted, peer⟩ = out) :
      Step members s (.voteAnswer round peer granted)
        { s.setNode round.request.candidateID out.1 with
          rounds := out.2.toList ++ s.rounds.erase round }
  | roundTimeout {round : VoteRound} (running : round ∈ s.rounds) :
      Step members s (.roundTimeout round) { s with rounds := s.rounds.erase round }
  | appendEntry {i entryType : String} {data : List UInt8} {now : Int} (member : i ∈ members) :
      Step members s (.appendEntry i entryType data now)
        (s.setNode i ((s.nodes i).appendEntry .healthy entryType data now).1)
  | replicate {i peer : String} {next : Option Int} {req : AppendRequest} (member : i ∈ members)
      (known : peer ∈ (s.nodes i).peers) (built : outgoing (s.nodes i) peer next = some req) :
      Step members s (.replicate i peer next)
        { s with appendRequests := (peer, req) :: s.appendRequests }
  | appendRequest {i : String} {req : AppendRequest} {resp : AppendResponse}
      (sent : (i, req) ∈ s.appendRequests)
      (answer : ((s.nodes i).handleAppendEntries .healthy req).2 = some resp) :
      Step members s (.appendRequest i req)
        { s.setNode i ((s.nodes i).handleAppendEntries .healthy req).1 with
          appendResponses := (i, req, resp) :: s.appendResponses }
  | appendResponse {i peer : String} {req : AppendRequest} {resp : AppendResponse}
      {rn : RaftNode} (member : i ∈ members) (known : peer ∈ (s.nodes i).peers)
      (handled : (s.nodes i).handleAppendEntriesResponse .healthy peer req resp = some rn) :
      Step members s (.appendResponse i peer req resp) (s.setNode i rn)
  | restart {i : String} (member : i ∈ members) : Step members s (.restart i)
      { s.setNode i (s.nodes i).restart with
        spawned := s.spawned.filter fun j => j ≠ i
        rounds := s.rounds.filter fun r => r.request.candidateID ≠ i }

variable {members : List String} {s : Cluster} {a : Action} {i : String}

open Cluster

/-- `step` by cases, with its guards as hypotheses. -/
theorem Cluster.Step.of_step {t : Cluster} (hstep : step members s a = some t) :
    Cluster.Step members s a t := by
  cases a <;> simp only [step, Option.ite_none_right_eq_some, Option.some.injEq,
    Option.map_eq_some_iff] at hstep
  case replicate =>
    obtain ⟨⟨hmem, hpeer⟩, req, hreq, rfl⟩ := hstep
    exact .replicate hmem hpeer hreq
  case appendRequest =>
    obtain ⟨hsent, resp, hresp, rfl⟩ := hstep
    exact .appendRequest hsent hresp
  case appendResponse =>
    obtain ⟨⟨hmem, hpeer⟩, rn, hrn, rfl⟩ := hstep
    exact .appendResponse hmem hpeer hrn
  case voteAnswer =>
    obtain ⟨⟨hround, hpeer⟩, rfl⟩ := hstep
    exact .voteAnswer hround hpeer rfl
  all_goals
    obtain ⟨hneeded, rfl⟩ := hstep
    constructor
    exact hneeded

/-- The transport behind the stubs: requests that are handled were sent, answers were given by
the peer's handler, and a leader replicates from its own `nextIndex`. -/
def Genuine (s : Cluster) : Action → Prop
  | .voteRequest i req => (i, req) ∈ s.voteRequests
  | .voteAnswer round peer granted =>
    ∃ a ∈ s.voteAnswers, a.1 = peer ∧ a.2.1 = round.request ∧ a.2.2.voteGranted = granted
  | .replicate _ _ next => next = none
  | .appendResponse i peer req resp => (peer, req, resp) ∈ s.appendResponses ∧ req.leaderID = i
  | _ => True

instance (s : Cluster) : ∀ a, Decidable (Genuine s a) := fun a => by
  cases a <;> dsimp only [Genuine] <;> infer_instance

/-- The same for log replication alone: votes may come from anywhere. -/
def Delivered (s : Cluster) : Action → Prop
  | .replicate _ _ next => next = none
  | .appendResponse i peer req resp => (peer, req, resp) ∈ s.appendResponses ∧ req.leaderID = i
  | _ => True

instance (s : Cluster) : ∀ a, Decidable (Delivered s a) := fun a => by
  cases a <;> dsimp only [Delivered] <;> infer_instance

theorem Genuine.delivered (h : Genuine s a) : Delivered s a := by
  cases a with
  | replicate | appendResponse => exact h
  | _ => trivial

/-- The runs of a cluster from `Bootstrap` on. -/
abbrev Cluster.run (members : List String) (acts : List Action) : Option Cluster :=
  Lts.exec (Cluster.step members) (Cluster.init members) acts

/-- The states of a run. -/
abbrev Cluster.states (members : List String) (acts : List Action) : List Cluster :=
  Lts.trace (Cluster.step members) (Cluster.init members) acts

/-- Every step of the run satisfies `ok`. -/
abbrev Cluster.Along (members : List String) (ok : Cluster → Action → Prop)
    (acts : List Action) : Prop :=
  Lts.Along (Cluster.step members) ok (Cluster.init members) acts

theorem Cluster.states_concat {acts : List Action} {t u : Cluster}
    (hrun : run members acts = some t) (hstep : step members t a = some u) :
    states members (acts ++ [a]) = states members acts ++ [u] :=
  Lts.trace_concat hrun hstep

/-! ## Leaders of a run -/

/-- Node `i` is leader of term `T`. -/
def Leads (s : Cluster) (i : String) (T : Int) : Prop :=
  (s.nodes i).state = .leader ∧ (s.nodes i).currentTerm = T

/-- Over all states of a list, at most one member is ever leader of a term. -/
def UniqueLeaders (members : List String) (states : List Cluster) : Prop :=
  ∀ s ∈ states, ∀ t ∈ states, ∀ i ∈ members, ∀ j ∈ members,
    (s.nodes i).state = .leader → (t.nodes j).state = .leader →
      (s.nodes i).currentTerm = (t.nodes j).currentTerm → i = j

instance (members : List String) (states : List Cluster) :
    Decidable (UniqueLeaders members states) := by
  unfold UniqueLeaders
  infer_instance

theorem UniqueLeaders.mono {l l' : List Cluster} (h : l ⊆ l') (hu : UniqueLeaders members l') :
    UniqueLeaders members l :=
  fun s hs t ht => hu s (h hs) t (h ht)

/-! ## Rewriting lemmas for `setNode` -/

@[simp] theorem setNode_self (s : Cluster) (i : String) (rn : RaftNode) :
    (s.setNode i rn).nodes i = rn := Function.update_self ..

theorem setNode_ne (s : Cluster) {j : String} (rn : RaftNode) (h : j ≠ i) :
    (s.setNode i rn).nodes j = s.nodes j := Function.update_of_ne h ..

/-- What holds of every node and of the new one holds after `setNode`. -/
theorem forall_setNode {rn : RaftNode} {P : String → RaftNode → Prop} (h : ∀ j, P j (s.nodes j))
    (hi : P i rn) : ∀ j, P j ((s.setNode i rn).nodes j) := by
  intro j
  by_cases hj : j = i
  · subst hj
    rw [setNode_self]
    exact hi
  · rw [setNode_ne s rn hj]
    exact h j

/-! ## Fixed membership -/

/-- Every node goes by its name, has all other members as peers, and its term and vote on disk.
-/
structure Mesh (members : List String) (nodes : String → RaftNode) : Prop where
  id : ∀ i, (nodes i).id = i
  peers : ∀ i, (nodes i).peers = meshPeers members i
  saved : ∀ i, (nodes i).Saved

theorem meshPeers_nodup (hnodup : members.Nodup) (i : String) :
    (meshPeers members i).Nodup := hnodup.filter _

theorem mem_meshPeers {j : String} : j ∈ meshPeers members i ↔ j ∈ members ∧ j ≠ i := by
  simp [meshPeers]

theorem meshPeers_length (hnodup : members.Nodup) (hi : i ∈ members) :
    (meshPeers members i).length + 1 = members.length := by
  have herase : meshPeers members i = members.erase i := by
    rw [hnodup.erase_eq_filter]
    exact List.filter_congr fun j _ => by by_cases hj : j = i <;> simp [hj]
  rw [herase, List.length_erase_of_mem hi]
  have := List.length_pos_of_mem hi
  omega

/-- A new cluster's nodes have all others as peers, in the order of the members. -/
theorem init_nodes (hnodup : members.Nodup) (i : String) :
    (init members).nodes i = { newRaftNode i .none with peers := meshPeers members i } := by
  show (meshPeers members i).foldl RaftNode.addPeer (newRaftNode i .none) = _
  rw [foldl_addPeer (by simp [newRaftNode])
    (by simpa [newRaftNode] using meshPeers_nodup hnodup i)]
  simp [newRaftNode]

theorem mesh_init (hnodup : members.Nodup) : Mesh members (init members).nodes where
  id i := by
    rw [init_nodes hnodup]
    rfl
  peers i := by
    rw [init_nodes hnodup]
  saved i := by
    rw [init_nodes hnodup]
    rfl

theorem Mesh.setNode (h : Mesh members s.nodes) {rn : RaftNode}
    (hrn : RaftNode.SameConfig (s.nodes i) rn) : Mesh members (s.setNode i rn).nodes where
  id := forall_setNode (P := fun j rn => rn.id = j) h.id (hrn.id.trans (h.id i))
  peers := forall_setNode (P := fun j rn => rn.peers = meshPeers members j) h.peers
    (hrn.peers.trans (h.peers i))
  saved := forall_setNode (P := fun _ rn => rn.Saved) h.saved (hrn.saved (h.saved i))

theorem Mesh.peers_nodup {nodes : String → RaftNode} (h : Mesh members nodes)
    (hnodup : members.Nodup) (i : String) : (nodes i).peers.Nodup := by
  rw [h.peers]
  exact meshPeers_nodup hnodup i

/-- No step changes a node's name or its peers. -/
theorem mesh_step (hnodup : members.Nodup) {t : Cluster} (h : Mesh members s.nodes)
    (hstep : step members s a = some t) : Mesh members t.nodes := by
  cases Step.of_step hstep with
  | electionTimeout =>
    refine h.setNode ?_
    unfold handleElectionTimeout
    split_ifs
    · exact SameConfig.refl _
    · exact ⟨rfl, rfl, fun _ => rfl⟩
  | requestVotes | roundTimeout | replicate => exact h
  | voteRequest => exact h.setNode (sameConfig_handleVoteRequest _ _)
  | @voteAnswer round peer granted out _ _ hout =>
    refine h.setNode ?_
    rcases (s.nodes round.request.candidateID).collectVote_cases round peer granted with
      ⟨heq, -⟩ | ⟨-, -, -, heq⟩ | ⟨-, -, -, heq⟩ <;>
    · rw [← hout, heq]
      exact ⟨rfl, rfl, fun h => h⟩
  | @appendEntry i =>
    refine h.setNode ?_
    by_cases hlead : (s.nodes i).state = .leader
    · rw [appendEntry_leader hlead]
      exact ⟨rfl, rfl, fun h => h⟩
    · rw [appendEntry_not_leader hlead]
      exact SameConfig.refl _
  | appendRequest => exact h.setNode (sameConfig_handleAppendEntries _ _)
  | appendResponse _ _ hrn =>
    exact h.setNode (sameConfig_handleAppendEntriesResponse hrn)
  | @restart i => exact h.setNode (sameConfig_restart (h.peers_nodup hnodup i))

end DistributedKV.Consensus
