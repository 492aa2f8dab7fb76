import DistributedKV.Consensus.CommitSafety

/-!
# Match indexes are truthful

`handleAppendEntriesResponse` sets `matchIndex[p]` to the end of the request a reply answers, and
replies may be late, repeated and out of order. In runs without crashes and with one leader per
term the leader is right all the same: as long as `p` has not moved to a later term, its log
agrees with the leader's up to the match index.

When `p` accepts a request its log holds the leader's log as of that request, and goes on to hold
it while its term stays (`HeldAck`): merging another part of it in never cuts it off.
-/

namespace DistributedKV.Consensus

open Lib

/-! ## Acknowledgements -/

/-- What a successful response says while the node stays in its term: the log still holds the
leader's log that the request carried. -/
structure HeldAck (g : RunView) (p : String) (req : AppendRequest) (resp : AppendResponse) :
    Prop where
  moved : req.term ≤ (g.now.nodes p).currentTerm
  term : resp.term = req.term
  held : ∃ L q, Carries g.canon req L q ∧
    ((g.now.nodes p).currentTerm = req.term → L <+: (g.now.nodes p).log)

/-- The invariant: logs, acknowledgements and the leaders' maps. -/
structure MatchInv (g : RunView) : Prop where
  logs : g.Logs
  acks : ∀ r ∈ g.now.appendResponses, r.2.2.success = true → HeldAck g r.1 r.2.1 r.2.2
  tracked : ∀ i, Tracked g (g.now.nodes i)

/-! ## One step -/

section Step

variable {g : RunView} {a : Action} {t : Cluster}

theorem HeldAck.next {p : String} {req : AppendRequest} {resp : AppendResponse}
    (h : HeldAck g p req resp) (hlogs : g.Logs) (hfree : CrashFree a)
    (hgrows : ∀ T, g.canon T <+: (g.next a t).canon T)
    (hother : ∀ j, j ≠ a.actor → t.nodes j = g.now.nodes j)
    (hmove : Move g.members g.now a (g.now.nodes a.actor) (t.nodes a.actor)) :
    HeldAck (g.next a t) p req resp := by
  have hle : (g.now.nodes p).currentTerm ≤ (t.nodes p).currentTerm := by
    by_cases hp : p = a.actor
    · rw [hp]
      exact hmove.term_le.1
    · rw [hother p hp]
  obtain ⟨L, q, hcarry, hheld⟩ := h.held
  refine ⟨h.moved.trans hle, h.term, L, q, hcarry.mono hgrows, fun hterm => ?_⟩
  have hnow : (t.nodes p).currentTerm = req.term := hterm
  -- terms only grow, so the node was in the term of the request before
  have hbefore : (g.now.nodes p).currentTerm = req.term := by
    have := h.moved
    omega
  refine hlogs.keeps hother hmove hfree.ne_restart (hheld hbefore) fun req' _ _ hterm' => ?_
  rw [← hterm', hnow]
  exact hcarry.canonical

/-- **One step keeps the invariant.** -/
theorem MatchInv.step (h : MatchInv g) (hnodup : g.members.Nodup) (hpresent : g.now ∈ g.states)
    (hunique : UniqueLeaders g.members (g.states ++ [t])) (hdel : Delivered g.now a)
    (hfree : CrashFree a) (hstep : Cluster.step g.members g.now a = some t) :
    MatchInv (g.next a t) := by
  obtain ⟨hother, hmove⟩ := step_move hnodup h.logs.mesh hstep
  have hgrows := (h.logs.noted hunique hmove).grows
  refine ⟨?_, ?_, ?_⟩
  · exact logInv_step hnodup h.logs hpresent hunique (Tracked.inRange h.logs h.tracked hstep) hstep
  · intro r hr hsucc
    rcases step_appendResponses hstep hr with hold | ⟨-, hsent, hresp, hnode⟩
    · exact (h.acks r hold hsucc).next h.logs hfree hgrows hother hmove
    -- a new acknowledgement: the node has just taken in the leader's log
    obtain ⟨-, hprev, hterm, hcur, -, hlog⟩ := accepted_of_success hresp hsucc
    obtain ⟨-, L, q, hcarry⟩ := h.logs.requests _ hsent
    rw [← hnode] at hcur hlog
    refine ⟨le_of_eq hcur.symm, hterm, L, q, hcarry.mono hgrows, fun _ => ?_⟩
    exact h.logs.accepted_prefix hcarry hprev hlog
  · refine tracked_step h.logs h.tracked (fun r hr hs => ?_) hdel hfree hother hstep
    obtain ⟨hmoved, hterm, L, q, hcarry, -⟩ := h.acks r hr hs
    exact ⟨hmoved, hterm, L, q, hcarry⟩

end Step

/-! ## Whole runs -/

theorem matchInv_run {members : List String} (hnodup : members.Nodup) :
    ∀ acts t, Cluster.Along members (fun s a => Delivered s a ∧ CrashFree a) acts →
      Cluster.run members acts = some t → UniqueLeaders members (Cluster.states members acts) →
      ∃ canon, MatchInv (runView members acts canon t) := by
  refine exists_runView ⟨logInv_init hnodup, by simp [Cluster.init],
    (commitInv_init hnodup).tracked⟩ ?_
  rintro g a t rfl h hpresent hunique ⟨hdel, hfree⟩ hstep
  exact h.step hnodup hpresent hunique hdel hfree hstep

/-- A leader and a member in its term hold the same entries up to the member's match index. -/
def TruthfulMatches (members : List String) (s : Cluster) : Prop :=
  ∀ i ∈ members, ∀ p ∈ members, (s.nodes i).state = .leader →
    (s.nodes p).currentTerm = (s.nodes i).currentTerm →
      ∀ n, 1 ≤ n → n ≤ (s.nodes i).matchIndex.get p →
        ∃ e, entryAt (s.nodes i).log n = some e ∧ entryAt (s.nodes p).log n = some e

theorem MatchInv.truthful {g : RunView} (h : MatchInv g) : TruthfulMatches g.members g.now := by
  intro i _ p _ hlead hterm n hpos hn
  -- a positive match index is an entry of the map
  have hentry : ⟨p, (g.now.nodes i).matchIndex.get p⟩ ∈ (g.now.nodes i).matchIndex.entries := by
    refine AList.mem_lookup_iff.mp ?_
    cases hlook : (g.now.nodes i).matchIndex.lookup p with
    | none =>
      have hzero : (g.now.nodes i).matchIndex.get p = 0 := by rw [IndexMap.get, hlook]; rfl
      omega
    | some m => rw [IndexMap.get, hlook]; rfl
  have hmatch : 1 ≤ (g.now.nodes i).matchIndex.get p := by omega
  obtain ⟨r, hr, rfl, hsucc, hreqterm, hlt⟩ := (h.tracked i).acked hlead _ hentry hmatch
  -- the acknowledged part of the leader's log is in both logs
  obtain ⟨L, q, hcarry, hheld⟩ := (h.acks r hr hsucc).held
  have hfollower : L <+: (g.now.nodes r.1).log := hheld (hterm.trans hreqterm.symm)
  have hleader : L <+: (g.now.nodes i).log := by
    rw [h.logs.leaders i hlead, ← hreqterm]
    exact hcarry.canonical
  rw [hcarry.last] at hlt
  obtain ⟨k, rfl⟩ : ∃ k : Nat, n = (k : Int) + 1 := ⟨(n - 1).toNat, by omega⟩
  dsimp only at hlt hn
  have hget := List.getElem?_eq_getElem (l := L) (i := k) (by omega)
  exact ⟨_, (entryAt_succ _ k).trans (prefix_getElem? hleader hget),
    (entryAt_succ _ k).trans (prefix_getElem? hfollower hget)⟩

/-- **Truthful match indexes.** In every run without crashes and with one leader per term, with
genuine requests and replies in any order and any number, match indexes are truthful in every
state. -/
theorem matchIndex_truthful (members : List String) (acts : List Action) (hnodup : members.Nodup)
    (hrun : Cluster.Along members (fun s a => Delivered s a ∧ CrashFree a) acts)
    (hunique : UniqueLeaders members (Cluster.states members acts)) :
    ∀ s ∈ Cluster.states members acts, TruthfulMatches members s := by
  intro s hs
  obtain ⟨pre, hpre, hexec⟩ := Lts.mem_trace_iff.mp hs
  obtain ⟨canon, h⟩ := matchInv_run hnodup pre s (hrun.restrict hpre) hexec
    (hunique.mono (Lts.trace_subset hpre))
  exact h.truthful

/-- `n1` sends one entry, then both; `n2` takes the longer request first, and the replies come
back in the other order, the later one twice. -/
def reorderedRun : List Action :=
  let x : LogEntry := ⟨1, 1, "put", [1], 10⟩
  let y : LogEntry := ⟨2, 1, "put", [2], 11⟩
  let vote : VoteRequest := ⟨1, "n1", 0, 0⟩
  let short : AppendRequest := ⟨1, "n1", 0, 0, [x], 0⟩
  let long : AppendRequest := ⟨1, "n1", 0, 0, [x, y], 0⟩
  [.electionTimeout "n1", .requestVotes "n1", .voteRequest "n2" vote,
    .voteAnswer ⟨vote, ["n2", "n3"], 1, 2⟩ "n2" true, .appendEntry "n1" "put" [1] 10,
    .replicate "n1" "n2" none, .appendEntry "n1" "put" [2] 11, .replicate "n1" "n2" none,
    .appendRequest "n2" long, .appendRequest "n2" short,
    .appendResponse "n1" "n2" short ⟨1, true, 2, "n2"⟩,
    .appendResponse "n1" "n2" long ⟨1, true, 2, "n2"⟩,
    .appendRequest "n2" short, .appendResponse "n1" "n2" long ⟨1, true, 2, "n2"⟩]

theorem matchIndex_truthful_reorderedRun :
    ((Cluster.run ["n1", "n2", "n3"] reorderedRun).map fun s =>
        ((s.nodes "n1").matchIndex.get "n2", (s.nodes "n2").log.map LogEntry.data)) =
      some (2, [[1], [2]]) ∧
    ∀ s ∈ Cluster.states ["n1", "n2", "n3"] reorderedRun, TruthfulMatches ["n1", "n2", "n3"] s :=
  ⟨by decide +kernel, matchIndex_truthful _ _ (by decide) (by decide +kernel)
    (by decide +kernel)⟩

end DistributedKV.Consensus
