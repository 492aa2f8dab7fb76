import DistributedKV.Consensus.LeaderCompleteness

/-!
# Commit and state machine safety

In runs without crashes, with an odd number of members and one leader per term, nodes agree on
committed entries, and no `commitIndex` goes back or passes the end of its log.

A leader commits a position of its own term that a majority has acknowledged, which makes it
*chosen*; a follower takes over the leader's commit index. So behind every commit index there is
a chosen position of some term whose prefix the log holds (`Backed`), and leader completeness
puts this prefix into every later leader's log and keeps it in all others.
-/

namespace DistributedKV.Consensus

open Lib Cluster IndexMap List Lts RaftNode

/-! ## What stands behind a commit index -/

/-- The commit index `c` of a log is backed by a chosen own position of a term not
after `term`. -/
def RunView.Backed (g : RunView) (log : List LogEntry) (c term : Int) : Prop :=
  0 ≤ c ∧ (0 < c → ∃ T k, T ≤ term ∧ g.Own T k ∧ g.Chosen T k ∧ c ≤ (k : Int) + 1 ∧
    (g.canon T).take c.toNat <+: log)

section Backed

variable {g : RunView} {log : List LogEntry} {c term : Int}

theorem backed_le_length (h : g.Backed log c term) : c ≤ log.length := by
  obtain ⟨hnonneg, hback⟩ := h
  by_cases hpos : 0 < c
  · obtain ⟨T, k, -, hown, -, hle, hpart⟩ := hback hpos
    have hlen := hpart.length_le
    have hk := hown.lt
    rw [length_take] at hlen
    omega
  · omega

/-- The committed part of a log is a prefix of what every later leader has. -/
theorem CompleteInv.committed_later (h : CompleteInv g) {T U : Int} {k : Nat} {i : String}
    (hled : g.Led U i) (hle : T ≤ U) (hown : g.Own T k) (hch : g.Chosen T k)
    (hc : c ≤ (k : Int) + 1) : (g.canon T).take c.toNat <+: g.canon U := by
  refine List.IsPrefix.trans ?_ (h.later hled hle hown hch.choosable)
  exact take_prefix_take_left (by omega)

/-- **Two backed commit indexes agree**: both logs hold the same entries up to the
smaller one. -/
theorem CompleteInv.backed_agree (h : CompleteInv g) {log' : List LogEntry} {c' term' : Int}
    (hb : g.Backed log c term) (hb' : g.Backed log' c' term') {n : Nat} (hn : (n : Int) ≤ c)
    (hn' : (n : Int) ≤ c') : log.take n = log'.take n := by
  by_cases hzero : n = 0
  · rw [hzero, take_zero, take_zero]
  obtain ⟨T, k, -, hown, hch, hle, hp⟩ := hb.2 (by omega)
  obtain ⟨T', k', -, hown', hch', hle', hp'⟩ := hb'.2 (by omega)
  have hk := hown.lt
  have hk' := hown'.lt
  -- both committed parts are on the line of the later of the two terms
  obtain ⟨C, hC, hC'⟩ : ∃ C, (g.canon T).take c.toNat <+: C ∧
      (g.canon T').take c'.toNat <+: C := by
    have hledOf : ∀ {T k}, g.Own T k → ∃ i, g.Led T i := by
      intro T k hown
      exact h.logs.exists_led (ne_nil_of_length_pos (by have := hown.lt; omega))
    rcases le_total T T' with hTT | hTT
    · obtain ⟨i, hled⟩ := hledOf hown'
      exact ⟨g.canon T', h.committed_later hled hTT hown hch hle, take_prefix _ _⟩
    · obtain ⟨i, hled⟩ := hledOf hown
      exact ⟨g.canon T, take_prefix _ _, h.committed_later hled hTT hown' hch' hle'⟩
  have hread : ∀ {T : Int} {c : Int} {k : Nat} {l : List LogEntry}, k < (g.canon T).length →
      c ≤ (k : Int) + 1 → (n : Int) ≤ c → (g.canon T).take c.toNat <+: l →
      (g.canon T).take c.toNat <+: C → l.take n = C.take n := by
    intro T c k l hk hle hn hl hC
    have hlen : n ≤ ((g.canon T).take c.toNat).length := by
      rw [length_take]
      omega
    rw [← prefix_take_eq hl hlen, prefix_take_eq hC hlen]
  rw [hread hk hle hn hp hC, hread hk' hle' hn' hp' hC']

/-- What backs a commit index goes on to back it, in a later term and for a log that holds the
committed part. -/
theorem StepOf.backed_mono {a : Action} {t : Cluster} (h : StepOf g a t)
    {log' : List LogEntry} {term' : Int} (hb : g.Backed log c term) (hterm : term ≤ term')
    (hlog : ∀ {T k}, T ≤ term → g.Own T k → g.Chosen T k → c ≤ (k : Int) + 1 →
      (g.canon T).take c.toNat <+: log → (g.canon T).take c.toNat <+: log') :
    (g.next a t).Backed log' c term' := by
  refine ⟨hb.1, fun hpos => ?_⟩
  obtain ⟨T, k, hT, hown, hch, hle, hp⟩ := hb.2 hpos
  refine ⟨T, k, hT.trans hterm, h.own_mono hown, h.chosen_mono hch, hle, ?_⟩
  have hk := hown.lt
  have hgrow : g.canon T <+: (g.next a t).canon T := h.noted.grows T
  rw [← prefix_take_eq hgrow (k := c.toNat) (by omega)]
  exact hlog hT hown hch hle hp

theorem StepOf.backed {a : Action} {t : Cluster} (h : StepOf g a t)
    (hcrash : ∀ i, a ≠ .restart i) {v : String}
    (hb : g.Backed (g.now.nodes v).log c (g.now.nodes v).currentTerm) :
    (g.next a t).Backed (t.nodes v).log c (t.nodes v).currentTerm :=
  h.backed_mono hb (h.term_le v) fun hT hown hch hle hp =>
    h.keeps hcrash hp fun _ _ hled hU => h.inv.committed_later hled (hT.trans hU) hown hch hle

end Backed

/-! ## What a leader knows about its peers -/

/-- A leader's `matchIndex` holds only acknowledged positions, and `nextIndex` is within the
log. -/
structure Tracked (g : RunView) (rn : RaftNode) : Prop where
  keys : ∀ e ∈ rn.matchIndex.entries, e.1 ∈ rn.peers
  acked : rn.state = .leader → ∀ e ∈ rn.matchIndex.entries, 1 ≤ e.2 →
    g.Acked rn.currentTerm e.1 (e.2 - 1).toNat
  next : rn.state = .leader → ∀ p ∈ rn.peers,
    0 ≤ rn.nextIndex.get p ∧ rn.nextIndex.get p ≤ (rn.log.length : Int) + 1

section Tracked

variable {g g' : RunView} {rn rn' : RaftNode}

/-- Commit index and maps stay, and a node that leads now has led before with a
log not longer. -/
structure Quiet (rn rn' : RaftNode) : Prop where
  peers : rn'.peers = rn.peers
  commitIndex : rn'.commitIndex = rn.commitIndex
  matchIndex : rn'.matchIndex = rn.matchIndex
  nextIndex : rn'.nextIndex = rn.nextIndex
  leader : rn'.state = .leader → rn.state = .leader ∧ rn'.currentTerm = rn.currentTerm ∧
    rn.log.length ≤ rn'.log.length

theorem Quiet.refl (rn : RaftNode) : Quiet rn rn :=
  ⟨rfl, rfl, rfl, rfl, fun hl => ⟨hl, rfl, le_refl _⟩⟩

theorem quiet_handleElectionTimeout (rn : RaftNode) :
    Quiet rn (rn.handleElectionTimeout .healthy) := by
  unfold RaftNode.handleElectionTimeout
  split_ifs
  · exact Quiet.refl rn
  · refine ⟨rfl, rfl, rfl, rfl, fun hl => ?_⟩
    cases hl

theorem quiet_stepDown (rn : RaftNode) (term : Int) : Quiet rn (rn.stepDown true term) := by
  refine ⟨rfl, rfl, rfl, rfl, fun hl => ?_⟩
  exact absurd hl (by simp [stepDown_eq])

theorem quiet_handleVoteRequest (rn : RaftNode) (req : VoteRequest) :
    Quiet rn (rn.handleVoteRequest .healthy req).1 := by
  rcases rn.handleVoteRequest_cases req with ⟨hrn, -⟩ | ⟨-, hrn, -⟩ | ⟨-, hle, -, -, hrn⟩ <;>
    rw [hrn]
  · exact Quiet.refl rn
  · exact quiet_stepDown rn req.term
  refine ⟨rfl, rfl, rfl, rfl, fun hl => ?_⟩
  split_ifs at hl with hnew
  exact ⟨hl, le_antisymm (not_lt.mp hnew) hle, le_refl _⟩

theorem quiet_appendEntry (rn : RaftNode) (entryType : String) (data : List UInt8) (now : Int) :
    Quiet rn (rn.appendEntry .healthy entryType data now).1 := by
  by_cases hlead : rn.state = .leader
  · rw [appendEntry_leader hlead]
    refine ⟨rfl, rfl, rfl, rfl, fun _ => ⟨hlead, rfl, ?_⟩⟩
    rw [length_append]
    exact Nat.le_add_right _ _
  · rw [appendEntry_not_leader hlead]
    exact Quiet.refl rn

theorem Tracked.quiet (h : Tracked g rn) (hq : Quiet rn rn') : Tracked g rn' where
  keys e he := by
    rw [hq.matchIndex] at he
    rw [hq.peers]
    exact h.keys e he
  acked hl e he hpos := by
    obtain ⟨hold, hterm, -⟩ := hq.leader hl
    rw [hq.matchIndex] at he
    rw [hterm]
    exact h.acked hold e he hpos
  next hl p hp := by
    obtain ⟨hold, -, hlen⟩ := hq.leader hl
    rw [hq.peers] at hp
    rw [hq.nextIndex]
    have := h.next hold p hp
    omega

theorem Tracked.mono (h : Tracked g rn) (hacked : ∀ T p k, g.Acked T p k → g'.Acked T p k) :
    Tracked g' rn where
  keys := h.keys
  acked hl e he hpos := hacked _ _ _ (h.acked hl e he hpos)
  next := h.next

theorem Tracked.follower (h : Tracked g rn) (hstate : rn'.state = .follower)
    (hpeers : rn'.peers = rn.peers) (hmatch : rn'.matchIndex = rn.matchIndex) : Tracked g rn' where
  keys e he := by
    rw [hmatch] at he
    rw [hpeers]
    exact h.keys e he
  acked hl := absurd (hstate.symm.trans hl) (by decide)
  next hl := absurd (hstate.symm.trans hl) (by decide)

open IndexMap

theorem Tracked.becomeLeader (h : Tracked g rn) (hnum : Numbered rn.log) :
    Tracked g rn.becomeLeader where
  keys e he := (mem_matchIndex_becomeLeader h.keys he).1
  acked _ e he hpos := by
    have := (mem_matchIndex_becomeLeader h.keys he).2
    omega
  next _ p hp := by
    show 0 ≤ get (rn.peers.foldl (fun m q => m.insert q _) rn.nextIndex) p ∧
      get (rn.peers.foldl (fun m q => m.insert q _) rn.nextIndex) p ≤ _
    have hp : p ∈ rn.peers := hp
    rw [get_foldl_insert hp]
    have hlast : rn.getLastLogIndex = rn.log.length := hnum.lastIndexOf_eq
    rw [hlast]
    exact ⟨by omega, le_refl _⟩

variable {peer p : String} {a : Action} {t : Cluster}

theorem next_insert {n v : Int}
    (h : ∀ p ∈ rn.peers, 0 ≤ rn.nextIndex.get p ∧ rn.nextIndex.get p ≤ n) (hv : 0 ≤ v ∧ v ≤ n) :
    ∀ p ∈ rn.peers, 0 ≤ get (rn.nextIndex.insert peer v) p ∧
      get (rn.nextIndex.insert peer v) p ≤ n := by
  intro p hp
  rw [get_insert]
  split_ifs
  · exact hv
  · exact h p hp

/-- A successful reply moves the maps to the end of the request it answers. -/
theorem Tracked.success (h : Tracked g rn) {matched c : Int} (hpeer : peer ∈ rn.peers)
    (hnonneg : 0 ≤ matched) (hlen : matched ≤ rn.log.length)
    (hacked : 1 ≤ matched → g.Acked rn.currentTerm peer (matched - 1).toNat) :
    Tracked g { rn with
      matchIndex := rn.matchIndex.insert peer matched
      nextIndex := rn.nextIndex.insert peer (matched + 1)
      commitIndex := c } where
  keys e he := by
    rcases mem_entries_insert he with rfl | ⟨hmem, -⟩
    · exact hpeer
    · exact h.keys e hmem
  acked hl e he hpos := by
    rcases mem_entries_insert he with rfl | ⟨hmem, -⟩
    · exact hacked hpos
    · exact h.acked hl e hmem hpos
  next hl := next_insert (h.next hl) (by omega)

theorem Tracked.failure (h : Tracked g rn) (hback : 1 < rn.nextIndex.get peer)
    (hpeer : peer ∈ rn.peers) :
    Tracked g { rn with
      nextIndex := rn.nextIndex.insert peer (rn.nextIndex.get peer - 1) } where
  keys := h.keys
  acked := h.acked
  next hl := by
    have := h.next hl peer hpeer
    exact next_insert (h.next hl) (by omega)

variable {i : String} {req : AppendRequest} {resp : AppendResponse} {T : Int} {k : Nat}

/-- A successful reply acknowledges the end of its request, whatever the commit index does then.
-/
theorem Tracked.answered (hlogs : g.Logs) (h : Tracked g (g.now.nodes i))
    (hpeer : peer ∈ (g.now.nodes i).peers) (hlead : (g.now.nodes i).state = .leader)
    (hterm : resp.term = (g.now.nodes i).currentTerm)
    (hgiven : (peer, req, resp) ∈ g.now.appendResponses) (hsucc : resp.success = true)
    (hrec : AckRecord g peer req resp) (c : Int) :
    Tracked g { g.now.nodes i with
      matchIndex := (g.now.nodes i).matchIndex.insert peer
        (req.prevLogIndex + req.entries.length)
      nextIndex := (g.now.nodes i).nextIndex.insert peer
        (req.prevLogIndex + req.entries.length + 1)
      commitIndex := c } := by
  obtain ⟨L, q, hcarry⟩ := hrec.carried
  have hend : req.prevLogIndex + req.entries.length = L.length := hcarry.last
  have hreqterm : req.term = (g.now.nodes i).currentTerm := hrec.term.symm.trans hterm
  have hlen : L.length ≤ (g.now.nodes i).log.length := by
    rw [hlogs.leaders i hlead, ← hreqterm]
    exact hcarry.canonical.length_le
  refine h.success hpeer (by omega) (by omega) fun hpos => ?_
  refine ⟨_, hgiven, rfl, hsucc, hreqterm, ?_⟩
  dsimp only
  omega

open Cluster

theorem RunView.Acked.next (hstep : step g.members g.now a = some t) (h : g.Acked T p k) :
    (g.next a t).Acked T p k := by
  obtain ⟨r, hr, hrest⟩ := h
  exact ⟨r, step_appendResponses_subset hstep hr, hrest⟩

/-- **The maps stay in order** at the node a step without a crash runs on. -/
theorem tracked_actor (hlogs : g.Logs) (h : ∀ i, Tracked g (g.now.nodes i))
    (hacks : ∀ r ∈ g.now.appendResponses, r.2.2.success = true → AckRecord g r.1 r.2.1 r.2.2)
    (hdel : Delivered g.now a) (hfree : CrashFree a)
    (hstep : step g.members g.now a = some t) : Tracked g (t.nodes a.actor) := by
  have hset : ∀ {i rn}, Tracked g rn → Tracked g ((g.now.setNode i rn).nodes i) := by
    intro i rn hrn
    rw [setNode_self]
    exact hrn
  cases Step.of_step hstep with
  | electionTimeout => exact hset ((h _).quiet (quiet_handleElectionTimeout _))
  | requestVotes | roundTimeout | replicate => exact h _
  | voteRequest => exact hset ((h _).quiet (quiet_handleVoteRequest _ _))
  | @voteAnswer round peer granted out running waiting collected =>
    refine hset ?_
    rcases (g.now.nodes round.request.candidateID).collectVote_cases round peer granted with
      ⟨hout, -⟩ | ⟨-, -, -, hout⟩ | ⟨-, -, -, hout⟩ <;> rw [← collected, hout]
    · exact h _
    · exact h _
    · -- the new leader starts its maps afresh
      exact (h _).becomeLeader (hlogs.numbered_log _)
  | appendEntry => exact hset ((h _).quiet (quiet_appendEntry _ _ _ _))
  | @appendRequest i req =>
    refine hset ?_
    -- a node that does not ignore the request is a follower, whose maps are not looked at
    rcases (g.now.nodes i).handleAppendEntries_cases req with ⟨-, hrn, -⟩ | ⟨-, hrn, -⟩ |
      ⟨-, -, log, r, -, -, -, -, hrn⟩ <;> rw [hrn]
    · exact h i
    · exact (h i).follower rfl rfl rfl
    · exact (h i).follower rfl rfl rfl
  | appendResponse member known handled =>
    refine hset ?_
    have hrec := hacks _ hdel.1
    rcases handleAppendEntriesResponse_cases handled with rfl |
      ⟨hlead, hterm, hsucc, -, matched, rfl, rfl | ⟨m, e, -, -, -, -, rfl⟩⟩ |
      ⟨-, -, -, hback, rfl⟩
    · exact h _
    · exact (h _).answered hlogs known hlead hterm hdel.1 hsucc (hrec hsucc) _
    · exact (h _).answered hlogs known hlead hterm hdel.1 hsucc (hrec hsucc) m
    · exact (h _).failure hback known
  | restart => exact hfree.elim

theorem tracked_step (hlogs : g.Logs) (h : ∀ i, Tracked g (g.now.nodes i))
    (hacks : ∀ r ∈ g.now.appendResponses, r.2.2.success = true → AckRecord g r.1 r.2.1 r.2.2)
    (hdel : Delivered g.now a) (hfree : CrashFree a)
    (hother : ∀ j, j ≠ a.actor → t.nodes j = g.now.nodes j)
    (hstep : step g.members g.now a = some t) : ∀ i, Tracked (g.next a t) (t.nodes i) := by
  refine forall_nodes hother (P := fun _ rn => Tracked (g.next a t) rn) ?_ ?_
  · exact (tracked_actor hlogs h hacks hdel hfree hstep).mono fun _ _ _ => .next hstep
  · exact fun j _ => (h j).mono fun _ _ _ => .next hstep

theorem Tracked.inRange (hlogs : g.Logs) (h : ∀ i, Tracked g (g.now.nodes i))
    (hstep : step g.members g.now a = some t) : InRange g.now a := by
  cases a with
  | replicate i peer next =>
    cases next with
    | some n => trivial
    | none =>
      intro hlead
      have hpeer : peer ∈ (g.now.nodes i).peers := by
        cases Step.of_step hstep with
        | replicate _ known => exact known
      have hnext := (h i).next hlead peer hpeer
      have hlast : (g.now.nodes i).getLastLogIndex = (g.now.nodes i).log.length :=
        (hlogs.numbered_log i).lastIndexOf_eq
      unfold RaftNode.startIndex
      split_ifs <;> omega
  | _ => trivial

/-- **What a leader commits is chosen**: its log and the counted acknowledgements are a
majority. -/
theorem Tracked.chosen (h : Tracked g rn) (hodd : g.members.length % 2 = 1)
    (hmembers : g.members.Nodup) (hmem : rn.id ∈ g.members)
    (hpeers : rn.peers = meshPeers g.members rn.id) (hlead : rn.state = .leader)
    (hself : g.Stored rn.currentTerm rn.id k)
    (hcount : rn.getMajority ≤ rn.replicaCount ((k : Int) + 1)) : g.Chosen rn.currentTerm k := by
  -- the peers whose match index reaches the position
  have hholder : ∀ p ∈ rn.replicas ((k : Int) + 1), p ∈ rn.peers ∧ g.Acked rn.currentTerm p k := by
    intro p hp
    obtain ⟨e, he, rfl, hle⟩ := mem_replicas hp
    obtain ⟨a, ha, hactor, hsucc, hT, hlt⟩ := h.acked hlead e he (by omega)
    exact ⟨h.keys e he, a, ha, hactor, hsucc, hT, by omega⟩
  refine ⟨rn.id :: rn.replicas ((k : Int) + 1), ⟨?_, ?_, ?_⟩, ?_⟩
  · refine nodup_cons.mpr ⟨fun hin => ?_, rn.replicas_nodup _⟩
    have := (hholder _ hin).1
    rw [hpeers, mem_meshPeers] at this
    exact this.2 rfl
  · refine cons_subset.mpr ⟨hmem, fun p hp => ?_⟩
    have := (hholder p hp).1
    rw [hpeers, mem_meshPeers] at this
    exact this.1
  · have hmesh := meshPeers_length hmembers hmem
    rw [replicaCount_eq, RaftNode.getMajority, hpeers] at hcount
    rw [length_cons]
    omega
  exact forall_mem_cons.mpr ⟨hself, fun q hq => Or.inl (hholder q hq).2⟩

end Tracked

/-! ## The invariant -/

/-- The invariant of crash-free runs. -/
structure CommitInv (g : RunView) : Prop where
  complete : CompleteInv g
  tracked : ∀ i, Tracked g (g.now.nodes i)
  commits : ∀ i, g.Backed (g.now.nodes i).log (g.now.nodes i).commitIndex
    (g.now.nodes i).currentTerm
  requests : ∀ r ∈ g.now.appendRequests,
    ∃ L p, Carries g.canon r.2 L p ∧ g.Backed L r.2.leaderCommit r.2.term

variable {members : List String} {g : RunView} {a : Action}

theorem commitInv_init (hnodup : members.Nodup) :
    CommitInv ⟨members, [init members], fun _ => [], init members⟩ where
  complete := completeInv_init hnodup
  tracked i := by
    rw [init_nodes hnodup]
    refine ⟨?_, ?_, ?_⟩
    · intro e he
      exact absurd he (by simp [newRaftNode])
    · intro hlead
      exact absurd hlead (by simp [newRaftNode])
    · intro hlead
      exact absurd hlead (by simp [newRaftNode])
  commits i := by
    rw [init_nodes hnodup]
    exact ⟨le_refl _, fun hpos => absurd hpos (by simp [newRaftNode])⟩
  requests := by simp [init]

/-! ## One step -/

namespace StepOf

variable {g : RunView} {a : Action} {t : Cluster}

/-- What a step may do to a node's commit index and maps. -/
structure Progress (g : RunView) (rn rn' : RaftNode) : Prop where
  mono : rn.commitIndex ≤ rn'.commitIndex
  tracked : Tracked g rn'
  backed : g.Backed rn'.log rn'.commitIndex rn'.currentTerm

/-- The commit index of `i` did not go back and is backed. -/
def Forward (g : RunView) (a : Action) (t : Cluster) (i : String) : Prop :=
  (g.now.nodes i).commitIndex ≤ (t.nodes i).commitIndex ∧
    (g.next a t).Backed (t.nodes i).log (t.nodes i).commitIndex (t.nodes i).currentTerm

variable {i peer : String} {req : AppendRequest}

section

variable (h : StepOf g a t)
include h

/-- A node that accepts a request holds the leader's log, so the leader's commit index is
inside. -/
theorem followed (hc : CommitInv g) (hcrash : ∀ i, a ≠ .restart i)
    (hsent : (i, req) ∈ g.now.appendRequests) (hprev : (g.now.nodes i).prevMismatch req = false)
    (hterm : (t.nodes i).currentTerm = req.term)
    (hlog : mergedLog (g.now.nodes i).log req = some (t.nodes i).log)
    (hcommit : (t.nodes i).commitIndex =
      if req.leaderCommit > (g.now.nodes i).commitIndex then
        min req.leaderCommit (lastIndexOf (t.nodes i).log) else (g.now.nodes i).commitIndex) :
    Forward g a t i := by
  have hkept := h.backed hcrash (hc.commits i)
  rw [Forward, hcommit]
  split_ifs with hgt
  · obtain ⟨L, p, hcarry, hback⟩ := hc.requests _ hsent
    have hsub : L <+: (t.nodes i).log := hc.complete.logs.accepted_prefix hcarry hprev hlog
    -- so the minimum is the leader's commit index
    have hmin : min req.leaderCommit (lastIndexOf (t.nodes i).log) = req.leaderCommit := by
      have hlast : lastIndexOf (t.nodes i).log = (t.nodes i).log.length :=
        (h.logs.numbered_log i).lastIndexOf_eq
      have hle : req.leaderCommit ≤ L.length := backed_le_length hback
      have hlen := hsub.length_le
      exact min_eq_left (by omega)
    rw [hmin]
    exact ⟨le_of_lt hgt, h.backed_mono hback hterm.ge fun _ _ _ _ hp => hp.trans hsub⟩
  · exact ⟨le_refl _, hkept⟩

/-- **Committing on a reply.** The position a leader commits is chosen. -/
theorem committed (hc : CommitInv g) (hodd : g.members.length % 2 = 1)
    (hnodup : g.members.Nodup) {rn : RaftNode} {m : Int} {e : LogEntry}
    (hnode : t.nodes i = { rn with commitIndex := m }) (hrn : Tracked g rn)
    (hstate : rn.state = .leader) (hlog : rn.log = (g.now.nodes i).log)
    (hterm : rn.currentTerm = (g.now.nodes i).currentTerm)
    (hsame : (g.now.nodes i).state = .leader) (hid : rn.id = i)
    (hpeers : rn.peers = meshPeers g.members i) (hpos : 0 < m) (he : entryAt rn.log m = some e)
    (heterm : e.term = rn.currentTerm) (hcount : rn.getMajority ≤ rn.replicaCount m) :
    (g.next a t).Backed (t.nodes i).log (t.nodes i).commitIndex (t.nodes i).currentTerm := by
  obtain ⟨k, rfl⟩ : ∃ k : Nat, m = (k : Int) + 1 := ⟨(m - 1).toNat, by omega⟩
  rw [entryAt_succ] at he
  have hled : g.Led rn.currentTerm i := by
    rw [hterm]
    exact hc.complete.logs.led_of_leader h.present hsame
  have hcanon : g.canon rn.currentTerm = rn.log := by
    rw [hterm, hlog]
    exact (hc.complete.logs.leaders i hsame).symm
  have hown : g.Own rn.currentTerm k := ⟨e, by rw [hcanon]; exact he, heterm⟩
  have hch : g.Chosen rn.currentTerm k := by
    refine hrn.chosen hodd hnodup (by rw [hid]; exact hled.1) (by rw [hid]; exact hpeers) hstate
      ?_ hcount
    rw [hid]
    exact Or.inr ⟨hled, hown.lt⟩
  rw [hnode]
  refine h.backed_mono ⟨show 0 ≤ (k : Int) + 1 by omega, fun _ => ?_⟩ le_rfl fun _ _ _ _ => id
  refine ⟨rn.currentTerm, k, le_refl _, hown, hch, le_refl _, ?_⟩
  rw [hcanon]
  exact take_prefix _ _

section

variable (hc : CommitInv g) (hcrash : ∀ i, a ≠ .restart i)
include hc hcrash

/-- A commit index that a step leaves alone stays backed. -/
theorem kept (hcommit : (t.nodes i).commitIndex = (g.now.nodes i).commitIndex) :
    Forward g a t i := by
  rw [Forward, hcommit]
  exact ⟨le_refl _, h.backed hcrash (hc.commits i)⟩

theorem commits_appendRequest (hsent : (i, req) ∈ g.now.appendRequests)
    (hnode : t.nodes i = ((g.now.nodes i).handleAppendEntries .healthy req).1) :
    Forward g a t i := by
  rcases (g.now.nodes i).handleAppendEntries_cases req with ⟨-, hrn, -⟩ | ⟨-, hrn, -⟩ |
    ⟨-, hprev, log, r, hlog, -, -, -, hrn⟩ <;> rw [hrn] at hnode
  · exact h.kept hc hcrash (by rw [hnode])
  · exact h.kept hc hcrash (by rw [hnode]; rfl)
  -- accepted: the node follows the leader's commit index
  exact h.followed hc hcrash hsent hprev (by rw [hnode]; rfl) (by rw [hnode]; exact hlog)
    (by rw [hnode])

theorem commits_appendResponse {resp : AppendResponse} (hodd : g.members.length % 2 = 1)
    (hnodup : g.members.Nodup)
    (hgiven : (peer, req, resp) ∈ g.now.appendResponses) (hpeer : peer ∈ (g.now.nodes i).peers)
    (hrn : (g.now.nodes i).handleAppendEntriesResponse .healthy peer req resp =
      some (t.nodes i)) : Forward g a t i := by
  have hmesh := hc.complete.logs.mesh
  rcases handleAppendEntriesResponse_cases hrn with heq |
    ⟨hlead, hterm, hsucc, -, matched, rfl, heq | ⟨m, e, hgt, he, heterm, hmaj, heq⟩⟩ |
    ⟨-, -, -, -, heq⟩
  · exact h.kept hc hcrash (by rw [heq])
  · exact h.kept hc hcrash (by rw [heq])
  · -- the reply acknowledges the end of the request
    have htracked := (hc.tracked i).answered hc.complete.logs hpeer hlead hterm hgiven hsucc
      (hc.complete.acks _ hgiven hsucc)
    have hnonneg := (hc.commits i).1
    refine ⟨?_, h.committed hc hodd hnodup heq (htracked _) hlead rfl rfl hlead (hmesh.id i)
      (hmesh.peers i) (by omega) he heterm hmaj⟩
    rw [heq]
    exact le_of_lt hgt
  · exact h.kept hc hcrash (by rw [heq]; rfl)

end

/-- **Progress**: where a step runs, the commit index does not go back and stays backed. -/
theorem progress (hc : CommitInv g) (hodd : g.members.length % 2 = 1)
    (hnodup : g.members.Nodup) (hgen : Genuine g.now a) (hfree : CrashFree a) :
    Progress (g.next a t) (g.now.nodes a.actor) (t.nodes a.actor) := by
  have hcrash := hfree.ne_restart
  have htracked := tracked_step hc.complete.logs hc.tracked hc.complete.acks hgen.delivered hfree
    h.other h.step a.actor
  suffices hcommits : Forward g a t a.actor from ⟨hcommits.1, htracked, hcommits.2⟩
  cases Step.of_step h.step with
  | electionTimeout =>
    exact h.kept hc hcrash (congrArg _ (setNode_self ..) |>.trans
      (quiet_handleElectionTimeout _).commitIndex)
  | voteRequest =>
    exact h.kept hc hcrash (congrArg _ (setNode_self ..) |>.trans
      (quiet_handleVoteRequest _ _).commitIndex)
  | appendEntry =>
    exact h.kept hc hcrash (congrArg _ (setNode_self ..) |>.trans
      (quiet_appendEntry _ _ _ _).commitIndex)
  | requestVotes | roundTimeout | replicate => exact h.kept hc hcrash rfl
  | @voteAnswer round peer granted out running waiting collected =>
    refine h.kept hc hcrash (congrArg _ (setNode_self ..) |>.trans ?_)
    rcases (g.now.nodes round.request.candidateID).collectVote_cases round peer granted with
      ⟨hout, -⟩ | ⟨-, -, -, hout⟩ | ⟨-, -, -, hout⟩ <;> rw [← collected, hout] <;> rfl
  | appendRequest sent => exact h.commits_appendRequest hc hcrash sent (setNode_self ..)
  | appendResponse member known handled =>
    exact h.commits_appendResponse hc hcrash hodd hnodup hgen.1 known
      (handled.trans (congrArg some (setNode_self ..).symm))
  | restart => exact absurd rfl (hcrash _)

end

end StepOf

/-- **One step keeps the invariant**, and no commit index goes back. -/
theorem StepOf.commitInv {t : Cluster} (h : StepOf g a t) (hc : CommitInv g)
    (hodd : g.members.length % 2 = 1) (hnodup : g.members.Nodup) (hgen : Genuine g.now a)
    (hfree : CrashFree a) : CommitInv (g.next a t) ∧
      ∀ i, (g.now.nodes i).commitIndex ≤ (t.nodes i).commitIndex := by
  have hcrash := hfree.ne_restart
  have hprogress : ∀ i, Progress (g.next a t) (g.now.nodes i) (t.nodes i) := by
    intro i
    by_cases hi : i = a.actor
    · rw [hi]
      exact h.progress hc hodd hnodup hgen hfree
    · obtain ⟨hmono, hbacked⟩ := h.kept hc hcrash (congrArg _ (h.other i hi))
      exact ⟨hmono, (h.other i hi).symm ▸ (hc.tracked i).mono fun _ _ _ => .next h.step, hbacked⟩
  refine ⟨⟨h.completeInv hnodup hodd hgen hfree, fun i => (hprogress i).tracked,
    fun i => (hprogress i).backed, ?_⟩, fun i => (hprogress i).mono⟩
  intro r hr
  rcases step_appendRequests h.step hr with hold | ⟨i, next, rfl, -, -, hout⟩
  · obtain ⟨L, p, hcarry, hback⟩ := hc.requests r hold
    exact ⟨L, p, hcarry.mono h.noted.grows, h.backed_mono hback le_rfl fun _ _ _ _ => id⟩
  -- a new request carries the leader's log and commit index
  have hlead := (outgoing_cases hout).1
  have hrange := Tracked.inRange hc.complete.logs hc.tracked h.step
  obtain ⟨-, hterm, -, hcommit, p, hcarry⟩ := outgoing_carries
    (hc.complete.logs.numbered_log i) (hc.complete.logs.leaders i hlead)
    (fun hnone => by subst hnone; exact hrange hlead) hout
  refine ⟨_, p, hcarry.mono h.noted.grows, h.backed_mono ?_ le_rfl fun _ _ _ _ => id⟩
  rw [hterm, hcommit]
  exact hc.commits i

/-! ## Whole runs -/

/-- The view of a run. -/
def runView (members : List String) (acts : List Action) (canon : Canon) (s : Cluster) :
    RunView :=
  ⟨members, Cluster.states members acts, canon, s⟩

theorem CommitInv.stepOf {t : Cluster} (hc : CommitInv g) (hnodup : g.members.Nodup)
    (hpresent : g.now ∈ g.states) (hunique : UniqueLeaders g.members (g.states ++ [t]))
    (hstep : step g.members g.now a = some t) : StepOf g a t := by
  have hlogs := hc.complete.logs
  obtain ⟨hother, hmove⟩ := step_move hnodup hlogs.mesh hstep
  exact ⟨hc.complete, logInv_step hnodup hlogs hpresent hunique
      (Tracked.inRange hlogs hc.tracked hstep) hstep,
    hlogs.noted hunique hmove, hpresent, hunique, hstep, hother, hmove⟩

/-- An invariant of runs with one leader per term, from one step of it. -/
theorem exists_runView {ok : Cluster → Action → Prop} {I : RunView → Prop}
    (hinit : I ⟨members, [init members], fun _ => [], init members⟩)
    (hnext : ∀ g a t, g.members = members → I g → g.now ∈ g.states →
      UniqueLeaders g.members (g.states ++ [t]) → ok g.now a →
      step g.members g.now a = some t → I (g.next a t)) :
    ∀ acts t, Cluster.Along members ok acts → run members acts = some t →
      UniqueLeaders members (states members acts) → ∃ canon, I (runView members acts canon t) := by
  refine trace_induction (fun _ => ⟨_, hinit⟩) ?_
  rintro acts a t u - hrun ih hok hstep hunique
  obtain ⟨canon, hg⟩ := ih (hunique.mono (trace_subset (prefix_append _ _)))
  rw [states_concat hrun hstep] at hunique
  refine ⟨noteLeader canon (u.nodes a.actor), ?_⟩
  rw [runView, states_concat hrun hstep]
  exact hnext _ a u rfl hg (exec_mem_trace hrun) hunique hok hstep

theorem commitInv_run (hnodup : members.Nodup) (hodd : members.length % 2 = 1) :
    ∀ acts t, Cluster.Along members (fun s a => Genuine s a ∧ CrashFree a) acts →
      run members acts = some t → UniqueLeaders members (states members acts) →
      ∃ canon, CommitInv (runView members acts canon t) := by
  refine exists_runView (commitInv_init hnodup) ?_
  rintro g a t rfl hc hpresent hunique ⟨hgen, hfree⟩ hstep
  exact ((hc.stepOf hnodup hpresent hunique hstep).commitInv hc hodd hnodup hgen hfree).1

/-- Nodes hold the same entry wherever both have committed, and no commit index passes its log.
-/
def CommitsAgree (members : List String) (s : Cluster) : Prop :=
  (∀ i ∈ members, ∀ j ∈ members, ∀ n, 1 ≤ n → n ≤ (s.nodes i).commitIndex →
    n ≤ (s.nodes j).commitIndex →
      ∃ e, entryAt (s.nodes i).log n = some e ∧ entryAt (s.nodes j).log n = some e) ∧
  ∀ i ∈ members, (s.nodes i).commitIndex ≤ (s.nodes i).getLastLogIndex

/-- No commit index goes back, and no committed entry is removed or replaced. -/
def CommitsKept (members : List String) (s t : Cluster) : Prop :=
  ∀ i ∈ members, (s.nodes i).commitIndex ≤ (t.nodes i).commitIndex ∧
    ∀ n, n ≤ (s.nodes i).commitIndex → entryAt (t.nodes i).log n = entryAt (s.nodes i).log n

theorem CommitInv.commitsAgree (h : CommitInv g) : CommitsAgree g.members g.now := by
  constructor
  · intro i _ j _ n hpos hi hj
    have hagree := h.complete.backed_agree (h.commits i) (h.commits j) (n := n.toNat)
      (by omega) (by omega)
    have hlen := backed_le_length (h.commits i)
    obtain ⟨m, rfl⟩ : ∃ m : Nat, n = (m : Int) + 1 := ⟨(n - 1).toNat, by omega⟩
    have hget := getElem?_eq_getElem (l := (g.now.nodes i).log) (i := m) (by omega)
    refine ⟨_, (entryAt_succ _ m).trans hget, ?_⟩
    rw [← entryAt_congr hagree, entryAt_succ, hget]
  · intro i _
    have hlast : (g.now.nodes i).getLastLogIndex = (g.now.nodes i).log.length :=
      (h.complete.logs.numbered_log i).lastIndexOf_eq
    rw [hlast]
    exact backed_le_length (h.commits i)

theorem StepOf.commitsKept {t : Cluster} (h : StepOf g a t) (hc : CommitInv g)
    (hodd : g.members.length % 2 = 1) (hnodup : g.members.Nodup) (hgen : Genuine g.now a)
    (hfree : CrashFree a) : CommitsKept g.members g.now t := by
  have hcrash := hfree.ne_restart
  intro i _
  refine ⟨(h.commitInv hc hodd hnodup hgen hfree).2 i, fun n hn => ?_⟩
  by_cases hpos : 0 < n
  · -- the committed part of the log lies on the line of all later leaders
    obtain ⟨T, k, hterm, hown, hch, hle, hpart⟩ := (hc.commits i).2 (by omega)
    have hk := hown.lt
    have hkept := h.keeps hcrash hpart fun U j hled hU =>
      hc.complete.committed_later hled (hterm.trans hU) hown hch hle
    have hlen : n.toNat ≤ ((g.canon T).take (g.now.nodes i).commitIndex.toNat).length := by
      rw [length_take]
      omega
    refine entryAt_congr ?_
    rw [← prefix_take_eq hkept hlen, prefix_take_eq hpart hlen]
  · rw [entryAt, entryAt, if_neg (by omega), if_neg (by omega)]

/-- **Commit and state machine safety.** In every run without crashes of an odd cluster with one
leader per term and a genuine transport, committed entries agree in every state, and they and
the commit indexes are kept from every state to every later one. -/
theorem commit_safety (members : List String) (acts : List Action) (hnodup : members.Nodup)
    (hodd : members.length % 2 = 1)
    (hrun : Cluster.Along members (fun s a => Genuine s a ∧ CrashFree a) acts)
    (hunique : UniqueLeaders members (Cluster.states members acts)) :
    (∀ s ∈ Cluster.states members acts, CommitsAgree members s) ∧
      (Cluster.states members acts).Pairwise (CommitsKept members) := by
  constructor
  · intro s hs
    obtain ⟨pre, hpre, hexec⟩ := mem_trace_iff.mp hs
    obtain ⟨canon, hc⟩ := commitInv_run hnodup hodd pre s (hrun.restrict hpre) hexec
      (hunique.mono (trace_subset hpre))
    exact hc.commitsAgree
  refine trace_pairwise ?_ ?_ acts ?_
  · exact fun t i _ => ⟨le_refl _, fun _ _ => rfl⟩
  · intro t u v htu huv i hi
    obtain ⟨hle, hkept⟩ := htu i hi
    obtain ⟨hle', hkept'⟩ := huv i hi
    exact ⟨hle.trans hle', fun n hn => (hkept' n (hn.trans hle)).trans (hkept n hn)⟩
  intro pre a t u hpre hexec hstep
  have hpre' : pre <+: acts := (prefix_append _ _).trans hpre
  obtain ⟨canon, hc⟩ := commitInv_run hnodup hodd pre t (hrun.restrict hpre') hexec
    (hunique.mono (trace_subset hpre'))
  obtain ⟨-, hlast⟩ := along_append.mp (hrun.restrict hpre)
  obtain ⟨hgen, hfree⟩ := (hlast t hexec).1
  replace hunique : UniqueLeaders members (states members (pre ++ [a])) :=
    hunique.mono (trace_subset hpre)
  rw [states_concat hexec hstep] at hunique
  exact (hc.stepOf hnodup (exec_mem_trace hexec) hunique hstep).commitsKept hc hodd hnodup
    hgen hfree

/-- `n1` commits with `n2`; `n2` is elected, commits an entry of its own with `n3` and tells it.
-/
def commitRun : List Action :=
  let x : LogEntry := ⟨1, 1, "put", [1], 10⟩
  let y : LogEntry := ⟨2, 2, "put", [2], 20⟩
  let first : VoteRequest := ⟨1, "n1", 0, 0⟩
  let second : VoteRequest := ⟨2, "n2", 1, 1⟩
  let carryX : AppendRequest := ⟨1, "n1", 0, 0, [x], 0⟩
  let probe : AppendRequest := ⟨2, "n2", 1, 1, [y], 0⟩
  let carryBoth : AppendRequest := ⟨2, "n2", 0, 0, [x, y], 0⟩
  [.electionTimeout "n1", .requestVotes "n1", .voteRequest "n2" first,
    .voteAnswer ⟨first, ["n2", "n3"], 1, 2⟩ "n2" true, .appendEntry "n1" "put" [1] 10,
    .replicate "n1" "n2" none, .appendRequest "n2" carryX,
    .appendResponse "n1" "n2" carryX ⟨1, true, 1, "n2"⟩,
    .electionTimeout "n2", .requestVotes "n2", .voteRequest "n3" second,
    .voteAnswer ⟨second, ["n1", "n3"], 1, 2⟩ "n3" true, .appendEntry "n2" "put" [2] 20,
    .replicate "n2" "n3" none, .appendRequest "n3" probe,
    .appendResponse "n2" "n3" probe ⟨2, false, 0, "n3"⟩,
    .replicate "n2" "n3" none, .appendRequest "n3" carryBoth,
    .appendResponse "n2" "n3" carryBoth ⟨2, true, 2, "n3"⟩,
    .replicate "n2" "n3" none, .appendRequest "n3" ⟨2, "n2", 2, 2, [], 2⟩]

theorem commit_safety_commitRun : ((Cluster.run ["n1", "n2", "n3"] commitRun).map fun s =>
        ["n1", "n2", "n3"].map fun i => (s.nodes i).commitIndex) = some [1, 2, 2] ∧
    (∀ s ∈ Cluster.states ["n1", "n2", "n3"] commitRun, CommitsAgree ["n1", "n2", "n3"] s) ∧
    (Cluster.states ["n1", "n2", "n3"] commitRun).Pairwise (CommitsKept ["n1", "n2", "n3"]) :=
  ⟨by decide +kernel, commit_safety _ _ (by decide) (by decide) (by decide +kernel)
    (by decide +kernel)⟩

/-! ## Leaders -/

section Leaders

variable {acts : List Action} {s : Cluster}

/-- What a node has committed is in the log of every leader whose term is not behind its own. -/
def InLeaders (s : Cluster) : Prop :=
  ∀ i j, (s.nodes j).state = .leader → (s.nodes i).currentTerm ≤ (s.nodes j).currentTerm →
    ∀ n ≤ (s.nodes i).commitIndex, entryAt (s.nodes j).log n = entryAt (s.nodes i).log n

theorem CommitInv.inLeaders (hc : CommitInv g) (hpresent : g.now ∈ g.states) :
    InLeaders g.now := by
  intro i j hlead hterm n hn
  by_cases hpos : 0 < n
  · obtain ⟨T, k, hT, hown, hch, hle, hpart⟩ := (hc.commits i).2 (by omega)
    have hlogs := hc.complete.logs
    have hlater := hc.complete.committed_later (hlogs.led_of_leader hpresent hlead)
      (hT.trans hterm) hown hch hle
    rw [← hlogs.leaders j hlead] at hlater
    have hk := hown.lt
    have hlen : n.toNat ≤ ((g.canon T).take (g.now.nodes i).commitIndex.toNat).length := by
      rw [length_take]
      omega
    refine entryAt_congr ?_
    rw [← prefix_take_eq hlater hlen, prefix_take_eq hpart hlen]
  · rw [entryAt, entryAt, if_neg (by omega), if_neg (by omega)]

/-- **Leader completeness** in every state of the runs of `commit_safety`. -/
theorem leader_completeness (hnodup : members.Nodup) (hodd : members.length % 2 = 1)
    (hrun : Cluster.Along members (fun s a => Genuine s a ∧ CrashFree a) acts)
    (hunique : UniqueLeaders members (states members acts)) :
    ∀ s ∈ states members acts, InLeaders s := by
  intro s hs
  obtain ⟨pre, hpre, hexec⟩ := mem_trace_iff.mp hs
  obtain ⟨canon, hc⟩ := commitInv_run hnodup hodd pre s (hrun.restrict hpre) hexec
    (hunique.mono (trace_subset hpre))
  exact hc.inLeaders (exec_mem_trace hexec)

theorem leader_completeness_commitRun : (run ["n1", "n2", "n3"] commitRun).isSome ∧
    ∀ s ∈ states ["n1", "n2", "n3"] commitRun, InLeaders s :=
  ⟨by decide +kernel,
    leader_completeness (by decide) (by decide) (by decide +kernel) (by decide +kernel)⟩

/-- A leader of `s` that leads the same term in `t` has its log of `s` still. -/
def LeadersAppend (s t : Cluster) : Prop :=
  ∀ i T, Leads s i T → Leads t i T → (s.nodes i).log <+: (t.nodes i).log

/-- The leaders so far have left their logs in the canonical ones. -/
structure PastLeaders (g : RunView) : Prop where
  logs : g.Logs
  past : ∀ s ∈ g.states, ∀ i, (s.nodes i).state = .leader →
    (s.nodes i).log <+: g.canon (s.nodes i).currentTerm

theorem PastLeaders.leadersAppend (h : PastLeaders g) (hs : s ∈ g.states) :
    LeadersAppend s g.now := by
  rintro i T ⟨hlead, rfl⟩ ⟨hlead', hterm⟩
  rw [h.logs.leaders i hlead', hterm]
  exact h.past s hs i hlead

/-- **Leaders only append**, in every run with one leader per term, with restarts and any order
of messages. -/
theorem leader_appends (hnodup : members.Nodup)
    (hrange : Cluster.Along members InRange acts)
    (hunique : UniqueLeaders members (states members acts)) :
    ∀ t ∈ run members acts, ∀ s ∈ states members acts, LeadersAppend s t := by
  intro t ht
  have hinit := logInv_init hnodup
  obtain ⟨canon, h⟩ : ∃ canon, PastLeaders (runView members acts canon t) := by
    refine exists_runView ⟨hinit, forall_mem_singleton.mpr fun i hi =>
      hinit.leaders i hi ▸ prefix_refl _⟩ ?_ acts t hrange ht hunique
    rintro g a u rfl ⟨hlogs, hpast⟩ hpresent huniq hrange hstep
    have h := logInv_step hnodup hlogs hpresent huniq hrange hstep
    have hgrows := (hlogs.noted huniq (step_move hnodup hlogs.mesh hstep).2).grows
    refine ⟨h, forall_mem_append.mpr ⟨fun s hs i hi => (hpast s hs i hi).trans (hgrows _), ?_⟩⟩
    exact forall_mem_singleton.mpr fun i hi => h.leaders i hi ▸ prefix_refl _
  exact fun s hs => h.leadersAppend hs

theorem leader_appends_overwriteRun : (run ["n1", "n2", "n3"] overwriteRun).isSome ∧
    ∀ t ∈ run ["n1", "n2", "n3"] overwriteRun,
      ∀ s ∈ states ["n1", "n2", "n3"] overwriteRun, LeadersAppend s t :=
  ⟨by decide +kernel, leader_appends (by decide)
    (by simp [overwriteRun, Cluster.Along, Lts.Along, InRange]) (by decide +kernel)⟩

end Leaders

end DistributedKV.Consensus
