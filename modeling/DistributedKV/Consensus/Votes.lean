import DistributedKV.Lib.Lts
import DistributedKV.Consensus.NodeSpec

/-!
# One vote per term

The vote of a node is written by `startElection`, `handleVoteRequest` and `handleAppendEntries` and
read back after a restart. One node is followed through any sequence of these calls, with the
votes it granted and the terms in which it forgot one.

`handleAppendEntries` clears `votedFor` not only for a newer term but also for the term the node
already voted in, and a vote request of that term then finds the vote free. A vote for the empty
candidate id, "no vote", is the other way to lose one. Otherwise votes are of past terms, or
recorded in `votedFor`, or known to be cleared (`VoteInv`).
-/

namespace DistributedKV.Consensus

open List RaftNode

/-- The calls on a single node. -/
inductive NodeCall where
  | handleVoteRequest (req : VoteRequest)
  | handleAppendEntries (req : AppendRequest)
  | startElection
  | restart

/-- A node, the votes it granted so far, as (term, candidate), and the terms whose vote an
append request of the same term cleared. -/
structure Voter where
  node : RaftNode
  grants : List (Int × String)
  cleared : List Int

/-- One call. A panic in `handleAppendEntries` kills the process, which then
comes back from disk. -/
def Voter.step (v : Voter) : NodeCall → Option Voter
  | .handleVoteRequest req =>
    let out := v.node.handleVoteRequest .healthy req
    some { v with
      node := out.1
      grants := if out.2.voteGranted then (req.term, req.candidateID) :: v.grants else v.grants }
  | .handleAppendEntries req =>
    let out := v.node.handleAppendEntries .healthy req
    some { v with
      node := if out.2.isSome then out.1 else out.1.restart
      cleared := if req.term = v.node.currentTerm ∧ v.node.votedFor ≠ "" then
        req.term :: v.cleared else v.cleared }
  | .startElection =>
    let rn := v.node.startElection .healthy
    some { v with node := rn, grants := (rn.currentTerm, rn.id) :: v.grants }
  | .restart => some { v with node := v.node.restart }

/-- A node created on the files of an earlier life. -/
def Voter.init (id : String) (files : NodeFiles) : Voter := ⟨newRaftNode id files, [], []⟩

/-- All grants of one term name one candidate. -/
def OneVotePerTerm (grants : List (Int × String)) : Prop :=
  ∀ g ∈ grants, ∀ h ∈ grants, g.1 = h.1 → g.2 = h.2

/-- No vote request of a term whose vote was cleared, candidates have a name, and the `int64`
term has room for one more election. -/
def KeepsVote (v : Voter) : NodeCall → Prop
  | .handleVoteRequest req => req.candidateID ≠ "" ∧ req.term ∉ v.cleared
  | .handleAppendEntries _ => True
  | .startElection => v.node.id ≠ "" ∧ v.node.currentTerm < 2 ^ 63 - 1
  | .restart => True

/-! ## The invariant -/

/-- The votes granted so far are backed by the node's memory and disk, except in `cleared`
terms. -/
structure VoteInv (rn : RaftNode) (grants : List (Int × String)) (cleared : Int → Prop) :
    Prop where
  /-- what a restart would read -/
  file : rn.persistence.file = ⟨rn.currentTerm, rn.votedFor⟩
  /-- no vote for a later term -/
  past : ∀ g ∈ grants, g.1 ≤ rn.currentTerm
  /-- a vote in the current term is still recorded, or was cleared -/
  current : ∀ g ∈ grants, g.1 = rn.currentTerm →
    (g.2 = rn.votedFor ∧ g.2 ≠ "") ∨ cleared rn.currentTerm
  unique : OneVotePerTerm grants

section VoteInv

variable {rn rn' : RaftNode} {grants : List (Int × String)} {cleared : Int → Prop}

section

variable (h : VoteInv rn grants cleared)
include h

theorem VoteInv.keep (hterm : rn'.currentTerm = rn.currentTerm) (hvote : rn'.votedFor = rn.votedFor)
    (hfile : rn'.persistence.file = rn.persistence.file) : VoteInv rn' grants cleared where
  file := by rw [hfile, h.file, hterm, hvote]
  past g hg := by
    rw [hterm]
    exact h.past g hg
  current g hg heq := by
    rw [hvote, hterm]
    exact h.current g hg (heq.trans hterm)
  unique := h.unique

theorem VoteInv.mono {cleared' : Int → Prop}
    (hc : ∀ T, cleared T → cleared' T) : VoteInv rn grants cleared' where
  file := h.file
  past := h.past
  current g hg heq := (h.current g hg heq).imp_right (hc _)
  unique := h.unique

/-- Recording a first vote, or the same vote again, in the current term. -/
theorem VoteInv.grant {candidate : String}
    (hterm : rn.currentTerm ≤ rn'.currentTerm) (hfree : rn'.currentTerm = rn.currentTerm →
      (rn.votedFor = "" ∨ rn.votedFor = candidate) ∧ ¬cleared rn.currentTerm)
    (hvote : rn'.votedFor = candidate) (hname : candidate ≠ "")
    (hfile : rn'.persistence.file = ⟨rn'.currentTerm, rn'.votedFor⟩) :
    VoteInv rn' ((rn'.currentTerm, candidate) :: grants) cleared := by
  -- an earlier vote of this term went to the same candidate
  have hsame : ∀ g ∈ grants, g.1 = rn'.currentTerm → g.2 = candidate := by
    intro g hg heq
    have hle := h.past g hg
    obtain ⟨hvoted, hkept⟩ := hfree (by omega)
    obtain ⟨hrec, hne⟩ := (h.current g hg (by omega)).resolve_right hkept
    rcases hvoted with hf | hf
    · exact absurd (hrec.trans hf) hne
    · exact hrec.trans hf
  refine ⟨hfile, ?_, ?_, ?_⟩
  · exact forall_mem_cons.mpr ⟨le_refl _, fun g hg => (h.past g hg).trans hterm⟩
  · intro g hg heq
    rw [hvote]
    rcases mem_cons.mp hg with rfl | hg
    · exact Or.inl ⟨rfl, hname⟩
    · exact Or.inl ⟨hsame g hg heq, by rw [hsame g hg heq]; exact hname⟩
  intro g hg g' hg' heq
  rcases mem_cons.mp hg with rfl | hg <;> rcases mem_cons.mp hg' with rfl | hg'
  · rfl
  · exact (hsame g' hg' heq.symm).symm
  · exact hsame g hg heq
  · exact h.unique g hg g' hg' heq

/-! ## The handlers keep it -/

theorem VoteInv.startElection (hid : rn.id ≠ "") :
    VoteInv (rn.startElection .healthy) ((rn.currentTerm + 1, rn.id) :: grants) cleared :=
  h.grant (lt_add_one _).le (fun heq => absurd heq (lt_add_one _).ne') rfl hid rfl

/-- Stepping down forgets a vote only if the term stays; then the term has to
count as cleared. -/
theorem VoteInv.stepDown {term : Int} (hterm : rn.currentTerm ≤ term)
    (hclear : term = rn.currentTerm → rn.votedFor ≠ "" → cleared term) :
    VoteInv (rn.stepDown true term) grants cleared := by
  by_cases heq : term = rn.currentTerm
  · refine ⟨rfl, fun g hg => (h.past g hg).trans hterm, fun g hg hg' => ?_, h.unique⟩
    right
    have hcur : g.1 = rn.currentTerm := hg'.trans heq
    rcases h.current g hg hcur with ⟨hrec, hne⟩ | hdone
    · exact hclear heq (hrec ▸ hne)
    · exact heq ▸ hdone
  · refine ⟨rfl, fun g hg => (h.past g hg).trans hterm, fun g hg hg' => ?_, h.unique⟩
    have hlt : g.1 < term := (h.past g hg).trans_lt (lt_of_le_of_ne hterm (Ne.symm heq))
    exact absurd hg' hlt.ne

theorem VoteInv.handleVoteRequest {req : VoteRequest}
    (hname : req.candidateID ≠ "") (hkept : ¬cleared req.term) :
    VoteInv (rn.handleVoteRequest .healthy req).1
      (if (rn.handleVoteRequest .healthy req).2.voteGranted then
        (req.term, req.candidateID) :: grants else grants) cleared := by
  rcases rn.handleVoteRequest_cases req with ⟨hrn, hno⟩ | ⟨hnew, hrn, hno⟩ |
    ⟨hyes, hle, -, hfree, hrn⟩
  · rw [hrn, hno]
    exact h
  · rw [hrn, hno]
    exact h.stepDown (by omega) (fun heq => by omega)
  · rw [hrn, hyes, if_pos rfl]
    exact h.grant hle (fun heq => ⟨hfree heq, heq ▸ hkept⟩) rfl hname rfl

theorem VoteInv.restart (hnodup : rn.peers.Nodup) : VoteInv rn.restart grants cleared := by
  obtain ⟨-, hterm, hvote, -⟩ := restart_saved hnodup h.file
  refine h.keep hterm hvote ?_
  rw [restart_eq hnodup]
  rfl

/-- `handleAppendEntries` keeps the votes if the term counts as cleared when it
finds a vote of it. -/
theorem VoteInv.handleAppendEntries {req : AppendRequest}
    (hclear : req.term = rn.currentTerm → rn.votedFor ≠ "" → cleared req.term) :
    VoteInv (rn.handleAppendEntries .healthy req).1 grants cleared := by
  rcases rn.handleAppendEntries_cases req with ⟨-, hrn, -⟩ | ⟨hle, hrn, -⟩ |
    ⟨hle, -, log, r, -, -, -, -, hrn⟩
  · rw [hrn]
    exact h
  · rw [hrn]
    exact h.stepDown hle hclear
  · rw [hrn]
    exact (h.stepDown hle hclear).keep rfl rfl rfl

end

end VoteInv

/-! ## One vote per term, along every run -/

/-- The invariant of a voter. -/
def Voter.Inv (v : Voter) : Prop :=
  VoteInv v.node v.grants (· ∈ v.cleared) ∧ v.node.peers.Nodup

theorem voter_inv_step {v v' : Voter} {call : NodeCall} (h : v.Inv) (hok : KeepsVote v call)
    (hstep : v.step call = some v') : v'.Inv := by
  obtain ⟨hinv, hnodup⟩ := h
  cases call with
  | handleVoteRequest req =>
    cases hstep
    refine ⟨hinv.handleVoteRequest hok.1 hok.2, ?_⟩
    rw [(sameConfig_handleVoteRequest v.node req).peers]
    exact hnodup
  | handleAppendEntries req =>
    cases hstep
    have hinv' : VoteInv (v.node.handleAppendEntries .healthy req).1 v.grants
        (· ∈ if req.term = v.node.currentTerm ∧ v.node.votedFor ≠ "" then
          req.term :: v.cleared else v.cleared) := by
      refine (hinv.mono ?_).handleAppendEntries ?_
      · intro T hT
        split_ifs
        · exact mem_cons_of_mem _ hT
        · exact hT
      · intro hterm hvote
        rw [if_pos ⟨hterm, hvote⟩]
        exact mem_cons_self ..
    have hnodup' : (v.node.handleAppendEntries .healthy req).1.peers.Nodup := by
      rw [(sameConfig_handleAppendEntries v.node req).peers]
      exact hnodup
    -- a panic is followed by a restart, which reads back what was saved
    cases (v.node.handleAppendEntries .healthy req).2.isSome with
    | true => exact ⟨hinv', hnodup'⟩
    | false =>
      refine ⟨hinv'.restart hnodup', ?_⟩
      rw [restart_eq hnodup']
      exact hnodup'
  | startElection =>
    cases hstep
    exact ⟨hinv.startElection hok.1, hnodup⟩
  | restart =>
    cases hstep
    refine ⟨hinv.restart hnodup, ?_⟩
    rw [restart_eq hnodup]
    exact hnodup

/-- **One vote per term.** A node started on any files grants at most one candidate its vote in
each term, in every run in which it is not asked again in a term whose vote an append request
cleared and candidates have a name. -/
theorem one_vote_per_term (id : String) (files : NodeFiles) (calls : List NodeCall) (v : Voter)
    (hkeep : Lts.Along Voter.step KeepsVote (Voter.init id files) calls)
    (hrun : v ∈ Lts.trace Voter.step (Voter.init id files) calls) : OneVotePerTerm v.grants := by
  have hinit : (Voter.init id files).Inv := by
    refine ⟨⟨rfl, ?_, ?_, ?_⟩, nodup_nil⟩
    all_goals
      intro g hg
      exact absurd hg (by simp [Voter.init])
  have hend : v.Inv :=
    hkeep.forall_trace hinit (fun _ _ _ h hok hs => voter_inv_step h hok hs) v hrun
  exact hend.1.unique

instance (v : Voter) : ∀ call, Decidable (KeepsVote v call) := fun call => by
  cases call <;> dsimp only [KeepsVote] <;> infer_instance

/-- A vote, the same again after a restart, an append request that clears it, a newer one, and a
self-vote. -/
def votingRun : List NodeCall :=
  [.handleVoteRequest ⟨1, "n1", 0, 0⟩, .restart, .handleVoteRequest ⟨1, "n1", 0, 0⟩,
    .handleAppendEntries ⟨1, "n1", 0, 0, [], 0⟩, .handleAppendEntries ⟨2, "n3", 0, 0, [], 0⟩,
    .startElection]

theorem one_vote_per_term_votingRun :
    (Lts.exec Voter.step (Voter.init "n2" .none) votingRun).map Voter.grants =
        some [(3, "n2"), (1, "n1"), (1, "n1")] ∧
      ∀ v ∈ Lts.trace Voter.step (Voter.init "n2" .none) votingRun, OneVotePerTerm v.grants :=
  ⟨by decide +kernel, fun v hv =>
    one_vote_per_term "n2" .none votingRun v (by decide +kernel) hv⟩

/-- **Two votes in one term.** The node votes for `n1` in term 1, the new leader's append
request clears that vote, and the node votes for `n3` in term 1 as well. -/
theorem vote_cleared_counterexample : ∃ v ∈ Lts.trace Voter.step (Voter.init "n2" .none)
        [.handleVoteRequest ⟨1, "n1", 0, 0⟩, .handleAppendEntries ⟨1, "n1", 0, 0, [], 0⟩,
          .handleVoteRequest ⟨1, "n3", 0, 0⟩],
      (1, "n1") ∈ v.grants ∧ (1, "n3") ∈ v.grants ∧ ¬OneVotePerTerm v.grants := by
  refine ⟨_, mem_of_getLast? rfl, by decide, by decide, ?_⟩
  intro h
  exact absurd (h (1, "n1") (by decide) (1, "n3") (by decide) rfl) (by decide)

end DistributedKV.Consensus
