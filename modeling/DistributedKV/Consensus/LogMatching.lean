import DistributedKV.Consensus.Moves

/-!
# Log matching

If at most one node is ever leader of a term, then two logs that hold an entry of the same index
and term are equal up to it.

`canon T` is a ghost: what the leader of term `T` has in its log, while it leads and ever after.
Every log is coherent with it (`Lib.Coherent`), and so is the log that any append request carries
a part of (`Carries`). A follower that accepts a request ends up with its old log or with the
leader's (`accepted_log`), so coherence is kept, and coherent logs match. `LogInv` also holds what
the commit argument needs: terms in a log do not decrease and are never above the node's own.
-/

namespace DistributedKV.Consensus

open Lib Function List

/-- The log of each term's leader. -/
abbrev Canon := Int → List LogEntry

/-! ## Requests carry a leader's log -/

/-- A request carries the part of the leader log `L` behind position `p`. -/
structure Carries (canon : Canon) (req : AppendRequest) (L : List LogEntry) (p : Nat) : Prop where
  prev : req.prevLogIndex = p
  within : p ≤ L.length
  entries : req.entries = L.drop p
  prevTerm : req.prevLogTerm = ((entryAt L p).map LogEntry.term).getD 0
  canonical : L <+: canon req.term

variable {canon : Canon} {req : AppendRequest} {L : List LogEntry} {rn : RaftNode}
  {members : List String} {states : List Cluster}

theorem Carries.mono {canon' : Canon} {p : Nat} (h : Carries canon req L p)
    (hgrow : ∀ T, canon T <+: canon' T) : Carries canon' req L p :=
  { h with canonical := h.canonical.trans (hgrow _) }

/-- The end of a request is the end of the log it carries. -/
theorem Carries.last {p : Nat} (h : Carries canon req L p) :
    req.prevLogIndex + req.entries.length = L.length := by
  have := h.within
  rw [h.prev, h.entries, length_drop]
  omega

open LogEntry

/-- **Accepting a request.** A coherent log that passes the check takes in the whole leader log.
-/
theorem accepted_log {p : Nat} (hlog : Coherent term canon rn.log)
    (hnum : Numbered rn.log) (hL : Coherent term canon L) (hreq : Carries canon req L p)
    (hprev : rn.prevMismatch req = false) : mergedLog rn.log req = some (merge term rn.log L) := by
  rcases RaftNode.prevMismatch_eq_false hnum hreq.prev hprev with rfl | ⟨k, e, rfl, he, hterm⟩
  · exact mergedLog_of_common hreq.prev hreq.entries (Nat.zero_le _) (Nat.zero_le _) rfl
  -- the entry before the new ones has the same term in both logs
  have hLk : L[k]? = some (L.get ⟨k, hreq.within⟩) := getElem?_eq_getElem hreq.within
  have hsame : e.term = (L.get ⟨k, hreq.within⟩).term := by
    rw [hterm, hreq.prevTerm, Nat.cast_add, Nat.cast_one, entryAt_succ, hLk]
    rfl
  have hlen := (List.getElem?_eq_some_iff.mp he).1
  exact mergedLog_of_common hreq.prev hreq.entries hlen hreq.within
    (hlog.matching hL k e _ he hLk hsame)

/-- Only a leader sends append requests, and a next index that is not its own is in range. -/
theorem outgoing_cases {peer : String} {next : Option Int} (h : outgoing rn peer next = some req) :
    rn.state = .leader ∧ ((next = none ∧ rn.buildAppendRequest (rn.startIndex peer) = some req) ∨
        ∃ n, next = some n ∧ 1 ≤ n ∧ n ≤ rn.getLastLogIndex + 1 ∧
          rn.buildAppendRequest n = some req) := by
  cases next with
  | none =>
    unfold outgoing RaftNode.replicateToFollower at h
    split_ifs at h with hlead
    exact ⟨not_not.mp hlead, Or.inl ⟨rfl, h⟩⟩
  | some n =>
    rw [outgoing] at h
    split_ifs at h with hlead
    exact ⟨hlead.1, Or.inr ⟨n, rfl, hlead.2.1, hlead.2.2, h⟩⟩

/-- **Sending a request.** It carries the leader's whole log, for any next index in range. -/
theorem outgoing_carries {peer : String} {next : Option Int} (hnum : Numbered rn.log)
    (hcanon : rn.log = canon rn.currentTerm)
    (hrange : next = none → 1 ≤ rn.startIndex peer ∧ rn.startIndex peer ≤ rn.getLastLogIndex + 1)
    (h : outgoing rn peer next = some req) :
    rn.state = .leader ∧ req.term = rn.currentTerm ∧ req.leaderID = rn.id ∧
      req.leaderCommit = rn.commitIndex ∧ ∃ p, Carries canon req rn.log p := by
  have hlast : rn.getLastLogIndex = rn.log.length := hnum.lastIndexOf_eq
  -- both ways of choosing the next index come down to one in range
  obtain ⟨hlead, hnext⟩ := outgoing_cases h
  obtain ⟨n, hlow, hhigh, hreq⟩ : ∃ n, 1 ≤ n ∧ n ≤ rn.getLastLogIndex + 1 ∧
      rn.buildAppendRequest n = some req := by
    rcases hnext with ⟨hnone, hreq⟩ | ⟨n, -, hlow, hhigh, hreq⟩
    · exact ⟨_, (hrange hnone).1, (hrange hnone).2, hreq⟩
    · exact ⟨n, hlow, hhigh, hreq⟩
  obtain ⟨p, rfl⟩ : ∃ p : Nat, n = (p : Int) + 1 := ⟨(n - 1).toNat, by omega⟩
  have hp : p ≤ rn.log.length := by omega
  rw [RaftNode.buildAppendRequest_eq rn hp] at hreq
  cases hreq
  refine ⟨hlead, rfl, rfl, rfl, p, rfl, hp, rfl, rfl, ?_⟩
  rw [← hcanon]

/-! ## The invariant -/

/-- Member `i` was leader of term `T` in one of the states. -/
def Led (members : List String) (states : List Cluster) (T : Int) (i : String) : Prop :=
  i ∈ members ∧ ∃ s ∈ states, Leads s i T

theorem Led.mono {states' : List Cluster} {T : Int} {i : String} (h : Led members states T i)
    (hsub : states ⊆ states') : Led members states' T i := by
  obtain ⟨hi, s, hs, hlead⟩ := h
  exact ⟨hi, s, hsub hs, hlead⟩

theorem Led.unique {T : Int} {i j : String} (hunique : UniqueLeaders members states)
    (hi : Led members states T i) (hj : Led members states T j) : i = j := by
  obtain ⟨hmi, s, hs, hsi, hsT⟩ := hi
  obtain ⟨hmj, t, ht, htj, htT⟩ := hj
  exact hunique s hs t ht i hmi j hmj hsi htj (hsT.trans htT.symm)

/-- The canonical logs after a step: a node that leads now has its log noted. -/
def noteLeader (canon : Canon) (rn : RaftNode) : Canon :=
  if rn.state = .leader then Function.update canon rn.currentTerm rn.log else canon

/-- What holds of logs, terms and append requests after the run through `states`. -/
structure LogInv (members : List String) (states : List Cluster) (canon : Canon) (s : Cluster) :
    Prop where
  mesh : Mesh members s.nodes
  canonical : Canonical LogEntry.term canon
  numbered : ∀ T, Numbered (canon T)
  coherent : ∀ i, Coherent LogEntry.term canon (s.nodes i).log
  /-- no entry is from a later term -/
  bounded : ∀ i, ∀ e ∈ (s.nodes i).log, e.term ≤ (s.nodes i).currentTerm
  /-- only members take part in elections -/
  outsiders : ∀ i, i ∉ members → (s.nodes i).state = .follower
  positive : ∀ i, 0 ≤ (s.nodes i).currentTerm ∧
    ((s.nodes i).state ≠ .follower → 1 ≤ (s.nodes i).currentTerm)
  leaders : ∀ i, (s.nodes i).state = .leader → (s.nodes i).log = canon (s.nodes i).currentTerm
  /-- who has led a term never is a candidate of it again -/
  led : ∀ T i, Led members states T i → 1 ≤ T ∧ T ≤ (s.nodes i).currentTerm ∧
    ((s.nodes i).currentTerm = T → (s.nodes i).state ≠ .candidate)
  unled : ∀ T, (∀ i, ¬Led members states T i) → canon T = []
  requests : ∀ r ∈ s.appendRequests,
    Led members states r.2.term r.2.leaderID ∧ ∃ L p, Carries canon r.2 L p

section LogInv

variable {members : List String} {states : List Cluster} {canon : Canon} {s t : Cluster}
  {i : String}

section

variable (h : LogInv members states canon s)
include h

theorem LogInv.numbered_log (i : String) : Numbered (s.nodes i).log := by
  rcases (h.coherent i).nil_or_canon with hnil | ⟨e, -, hp⟩
  · rw [hnil]
    exact numbered_nil
  · exact (h.numbered e.term).restrict hp

theorem LogInv.member_of_active (hi : (s.nodes i).state ≠ .follower) : i ∈ members := by
  by_contra hout
  exact hi (h.outsiders i hout)

theorem LogInv.led_of_leader (hs : s ∈ states)
    (hlead : (s.nodes i).state = .leader) : Led members states (s.nodes i).currentTerm i :=
  ⟨h.member_of_active (by rw [hlead]; decide), s, hs, hlead, rfl⟩

/-- A term with an entry anywhere in a canonical log has been led. -/
theorem LogInv.exists_led {T : Int} (hT : canon T ≠ []) :
    ∃ i, Led members states T i := by
  by_contra hno
  push Not at hno
  exact hT (h.unled T hno)

end

open Cluster

theorem logInv_init (hnodup : members.Nodup) :
    LogInv members [init members] (fun _ => []) (init members) where
  mesh := mesh_init hnodup
  canonical := ⟨fun _ => Coherent.nil, by simp, by simp⟩
  numbered _ := numbered_nil
  coherent i := by
    rw [init_nodes hnodup]
    exact Coherent.nil
  bounded i e he := by
    rw [init_nodes hnodup] at he
    exact absurd he (by simp [newRaftNode])
  outsiders i _ := by
    rw [init_nodes hnodup]
    rfl
  positive i := by
    rw [init_nodes hnodup]
    exact ⟨le_refl _, fun h => absurd rfl h⟩
  leaders i hi := by
    rw [init_nodes hnodup] at hi
    exact absurd hi (by simp [newRaftNode])
  led T i hled := by
    obtain ⟨-, s, hs, hlead, -⟩ := hled
    rw [mem_singleton.mp hs, init_nodes hnodup] at hlead
    exact absurd hlead (by simp [newRaftNode])
  unled _ _ := rfl
  requests := by simp [init]

/-! ## One step -/

variable {rn rn' : RaftNode} {a : Action}

theorem noteLeader_leader (h : rn.state = .leader) :
    noteLeader canon rn = Function.update canon rn.currentTerm rn.log := if_pos h

theorem noteLeader_other (h : rn.state ≠ .leader) :
    noteLeader canon rn = canon := if_neg h

/-- Nobody has led the term of a candidate that wins now. -/
theorem LogInv.unled_of_win (h : LogInv members states canon s)
    (hunique : UniqueLeaders members (states ++ [t]))
    (hcand : (s.nodes i).state = .candidate) (hlead : (t.nodes i).state = .leader)
    (hterm : (t.nodes i).currentTerm = (s.nodes i).currentTerm) :
    ∀ j, ¬Led members states (s.nodes i).currentTerm j := by
  intro j hj
  have hmem : i ∈ members := h.member_of_active (by rw [hcand]; decide)
  have hi : Led members (states ++ [t]) (s.nodes i).currentTerm i :=
    ⟨hmem, t, by simp, hlead, hterm⟩
  -- two leaders of one term over the whole run are the same node
  obtain rfl : i = j := Led.unique hunique hi (hj.mono (subset_append_left _ _))
  exact (h.led _ _ hj).2.2 rfl hcand

/-- The canonical logs after a move: grown, in order, and coherent with the log of the node. -/
structure Noted (canon : Canon) (rn' : RaftNode) : Prop where
  grows : ∀ T, canon T <+: noteLeader canon rn' T
  canonical : Canonical LogEntry.term (noteLeader canon rn')
  numbered : ∀ T, Numbered (noteLeader canon rn' T)
  coherent : Coherent LogEntry.term (noteLeader canon rn') rn'.log
  bounded : ∀ e ∈ rn'.log, e.term ≤ rn'.currentTerm

/-- A node that does not lead now leaves the canonical logs alone. -/
theorem LogInv.noted_other (h : LogInv members states canon s) (hstate : rn'.state ≠ .leader)
    (hcoh : Coherent term canon rn'.log)
    (hbound : ∀ e ∈ rn'.log, e.term ≤ rn'.currentTerm) : Noted canon rn' := by
  refine ⟨?_, ?_, ?_, ?_, hbound⟩ <;> rw [noteLeader_other hstate]
  · exact fun T => prefix_refl _
  · exact h.canonical
  · exact h.numbered
  · exact hcoh

/-- A leader's log is the canonical one of its term from now on. -/
theorem LogInv.noted_leader (h : LogInv members states canon s) (hstate : rn'.state = .leader)
    (hgrow : canon rn'.currentTerm <+: rn'.log)
    (hcanonical : Canonical term (Function.update canon rn'.currentTerm rn'.log))
    (hnumbered : Numbered rn'.log) : Noted canon rn' := by
  have hcoherent := hcanonical.coherent rn'.currentTerm
  have hbounded := hcanonical.bounded rn'.currentTerm
  rw [update_self] at hcoherent hbounded
  refine ⟨?_, ?_, ?_, ?_, hbounded⟩ <;> rw [noteLeader_leader hstate]
  · exact prefix_update hgrow
  · exact hcanonical
  · exact (forall_update_iff canon fun _ => Numbered).mpr ⟨hnumbered, fun T _ => h.numbered T⟩
  · exact hcoherent

section Accepted

variable {i : String} {req : AppendRequest} {log L : List LogEntry} {p : Nat}
  (h : LogInv members states canon s) (hreq : Carries canon req L p)
  (hprev : (s.nodes i).prevMismatch req = false) (hlog : mergedLog (s.nodes i).log req = some log)
include h hreq hprev hlog

/-- A node that accepts a request merges the leader's log into its own, and the two
match. -/
theorem LogInv.accepted :
    log = merge term (s.nodes i).log L ∧ Matching term (s.nodes i).log L := by
  have hL := (h.canonical.coherent req.term).restrict hreq.canonical
  rw [accepted_log (h.coherent i) (h.numbered_log i) hL hreq hprev] at hlog
  exact ⟨(Option.some.inj hlog).symm, (h.coherent i).matching hL⟩

theorem LogInv.accepted_prefix : L <+: log := by
  obtain ⟨rfl, hmatch⟩ := h.accepted hreq hprev hlog
  exact prefix_merge hmatch

end Accepted

section Noted

variable {i : String} {rn' : RaftNode}

section

variable (h : LogInv members states canon s)
include h

theorem LogInv.noted_rest
    (hstate : rn'.state = (s.nodes i).state) (hterm : rn'.currentTerm = (s.nodes i).currentTerm)
    (hlog : rn'.log = (s.nodes i).log) : Noted canon rn' := by
  by_cases hlead : rn'.state = .leader
  · -- the leader's log is the canonical one already
    have hcanon : rn'.log = canon rn'.currentTerm := by
      rw [hlog, hterm]
      exact h.leaders i (hstate.symm.trans hlead)
    refine h.noted_leader hlead ?_ ?_ ?_
    · rw [hcanon]
    · rw [hcanon, update_eq_self]
      exact h.canonical
    · rw [hcanon]
      exact h.numbered _
  · refine h.noted_other hlead ?_ ?_
    · rw [hlog]
      exact h.coherent i
    · rw [hlog, hterm]
      exact h.bounded i

theorem LogInv.noted_win (hempty : canon rn'.currentTerm = []) (hstate : rn'.state = .leader)
    (hterm : rn'.currentTerm = (s.nodes i).currentTerm) (hlog : rn'.log = (s.nodes i).log) :
    Noted canon rn' := by
  refine h.noted_leader hstate ?_ (h.canonical.name hempty (hlog ▸ h.coherent i) ?_) ?_
  · rw [hempty]
    exact nil_prefix
  · rw [hlog, hterm]
    exact h.bounded i
  · rw [hlog]
    exact h.numbered_log i

theorem LogInv.noted_extend {e : LogEntry}
    (hlead : (s.nodes i).state = .leader) (hstate : rn'.state = .leader)
    (hterm : rn'.currentTerm = (s.nodes i).currentTerm) (hlog : rn'.log = (s.nodes i).log ++ [e])
    (heterm : e.term = (s.nodes i).currentTerm)
    (hindex : e.index = lastIndexOf (s.nodes i).log + 1) : Noted canon rn' := by
  have hcanon : rn'.log = canon rn'.currentTerm ++ [e] := by
    rw [hlog, h.leaders i hlead, hterm]
  refine h.noted_leader hstate ?_ ?_ ?_
  · rw [hcanon]
    exact prefix_append _ _
  · rw [hcanon]
    exact h.canonical.extend (heterm.trans hterm.symm)
  rw [hlog]
  refine (h.numbered_log i).concat ?_
  rw [hindex, (h.numbered_log i).lastIndexOf_eq]

theorem LogInv.noted_accept {req : AppendRequest}
    (hsent : (i, req) ∈ s.appendRequests) (hknown : (s.nodes i).currentTerm ≤ req.term)
    (hprev : (s.nodes i).prevMismatch req = false) (hstate : rn'.state = .follower)
    (hterm : rn'.currentTerm = req.term)
    (hlog : mergedLog (s.nodes i).log req = some rn'.log) : Noted canon rn' := by
  have hother : rn'.state ≠ .leader := by
    rw [hstate]
    decide
  obtain ⟨-, L, p, hreq⟩ := h.requests _ hsent
  obtain ⟨hnew, hmatch⟩ := h.accepted hreq hprev hlog
  -- the log is the old one or the leader's
  rcases merge_cases hmatch with ⟨-, hm⟩ | hm <;> rw [hm] at hnew
  · refine h.noted_other hother (hnew ▸ h.coherent i) ?_
    intro e he
    rw [hterm]
    exact (h.bounded i e (hnew ▸ he)).trans hknown
  have hL := (h.canonical.coherent req.term).restrict hreq.canonical
  refine h.noted_other hother (hnew ▸ hL) ?_
  intro e he
  rw [hterm]
  exact h.canonical.bounded req.term e (hreq.canonical.subset (hnew ▸ he))

end

end Noted

/-- **Every move is noted**: the canonical logs only grow and all logs stay
coherent with them. -/
theorem LogInv.noted (h : LogInv members states canon s)
    (hunique : UniqueLeaders members (states ++ [t]))
    (hmove : Move members s a (s.nodes a.actor) (t.nodes a.actor)) :
    Noted canon (t.nodes a.actor) := by
  generalize hi : a.actor = i at hmove ⊢
  cases hmove with
  | rest hstate hterm hlog => exact h.noted_rest hstate hterm hlog
  | campaign _ _ hstate hterm hlog =>
    refine h.noted_other (by rw [hstate]; decide) (hlog ▸ h.coherent i) ?_
    intro e he
    have := h.bounded i e (hlog ▸ he)
    omega
  | follow hstate hterm hlog =>
    refine h.noted_other (by rw [hstate]; decide) (hlog ▸ h.coherent i) ?_
    intro e he
    exact (h.bounded i e (hlog ▸ he)).trans hterm
  | win _ _ _ _ hcand hstate hterm hlog =>
    refine h.noted_win ?_ hstate hterm hlog
    rw [hterm]
    exact h.unled _ (h.unled_of_win hunique hcand hstate hterm)
  | extend e hlead hstate hterm hlog heterm hindex =>
    exact h.noted_extend hlead hstate hterm hlog heterm hindex
  | accept req _ hsent hknown hprev hstate hterm hlog =>
    exact h.noted_accept (hi ▸ hsent) hknown hprev hstate hterm hlog
  | restart _ hstate hterm hlog =>
    refine h.noted_other (by rw [hstate]; decide) ?_ ?_ <;> rw [hlog]
    · exact Coherent.nil
    · simp

/-- A move never lowers the term, and a node that has led a term does not become
a candidate of it. -/
theorem Move.term_le (h : Move members s a rn rn') : rn.currentTerm ≤ rn'.currentTerm ∧
      (rn'.state = .candidate → rn'.currentTerm = rn.currentTerm → rn.state = .candidate) := by
  cases h with
  | rest hstate hterm _ => exact ⟨by omega, fun hc _ => hstate ▸ hc⟩
  | campaign _ _ _ hterm _ => exact ⟨by omega, fun _ heq => by omega⟩
  | follow hstate hterm _ => exact ⟨hterm, fun hc _ => absurd (hstate.symm.trans hc) (by decide)⟩
  | win _ _ _ _ hcand _ hterm _ => exact ⟨by omega, fun _ _ => hcand⟩
  | extend _ _ hstate hterm | accept _ _ _ _ _ hstate hterm | restart _ hstate hterm =>
    exact ⟨by omega, fun hc _ => absurd (hstate.symm.trans hc) (by decide)⟩

/-- Only members leave the follower role, and only for a positive term. -/
theorem LogInv.active (h : LogInv members states canon s)
    (hmove : Move members s a (s.nodes a.actor) rn') (hact : rn'.state ≠ .follower) :
    a.actor ∈ members ∧ 1 ≤ rn'.currentTerm := by
  have hpos := h.positive a.actor
  have hmem : (s.nodes a.actor).state ≠ .follower →
      a.actor ∈ members ∧ 1 ≤ (s.nodes a.actor).currentTerm :=
    fun hst => ⟨h.member_of_active hst, hpos.2 hst⟩
  cases hmove with
  | rest hstate hterm _ =>
    rw [hterm]
    exact hmem (hstate ▸ hact)
  | campaign hi _ _ hterm _ => exact ⟨hi, by omega⟩
  | win _ _ _ _ hcand _ hterm _ =>
    rw [hterm]
    exact hmem (by rw [hcand]; decide)
  | extend _ hlead _ hterm _ _ _ =>
    rw [hterm]
    exact hmem (by rw [hlead]; decide)
  | follow hstate | accept _ _ _ _ _ hstate | restart _ hstate => exact absurd hstate hact

/-- The next index of a replication is one the log has or the one behind it. -/
def InRange (s : Cluster) : Action → Prop
  | .replicate i peer none => (s.nodes i).state = .leader →
    1 ≤ (s.nodes i).startIndex peer ∧
      (s.nodes i).startIndex peer ≤ (s.nodes i).getLastLogIndex + 1
  | _ => True

/-- A statement about all nodes after a step: about the actor, and about the others as
they were. -/
theorem forall_nodes (hother : ∀ j, j ≠ a.actor → t.nodes j = s.nodes j)
    {P : String → RaftNode → Prop} (hactor : P a.actor (t.nodes a.actor))
    (hrest : ∀ j, j ≠ a.actor → P j (s.nodes j)) : ∀ j, P j (t.nodes j) := by
  intro j
  by_cases hj : j = a.actor
  · exact hj ▸ hactor
  · rw [hother j hj]
    exact hrest j hj

section Step

variable {a : Action} (h : LogInv members states canon s)
  (hother : ∀ j, j ≠ a.actor → t.nodes j = s.nodes j)
  (hmove : Move members s a (s.nodes a.actor) (t.nodes a.actor))

include h hother hmove

theorem LogInv.outsiders_step : ∀ j, j ∉ members → (t.nodes j).state = .follower := by
  refine forall_nodes hother (P := fun j rn => j ∉ members → rn.state = .follower) ?_ ?_
  · intro hout
    by_contra hact
    exact hout (h.active hmove hact).1
  · exact fun j _ => h.outsiders j

theorem LogInv.positive_step : ∀ j, 0 ≤ (t.nodes j).currentTerm ∧
    ((t.nodes j).state ≠ .follower → 1 ≤ (t.nodes j).currentTerm) := by
  refine forall_nodes hother (P := fun _ rn => 0 ≤ rn.currentTerm ∧
    (rn.state ≠ .follower → 1 ≤ rn.currentTerm)) ?_ ?_
  · constructor
    · exact (h.positive _).1.trans hmove.term_le.1
    · exact fun hact => (h.active hmove hact).2
  · exact fun j _ => h.positive j

theorem LogInv.leaders_step (hunique : UniqueLeaders members (states ++ [t])) :
    ∀ j, (t.nodes j).state = .leader →
      (t.nodes j).log = noteLeader canon (t.nodes a.actor) (t.nodes j).currentTerm := by
  intro j hj
  by_cases hja : j = a.actor
  · rw [hja] at hj ⊢
    rw [noteLeader_leader hj, update_self]
  have hlead := hj
  rw [hother j hja] at hlead
  rw [hother j hja, h.leaders j hlead]
  by_cases hact : (t.nodes a.actor).state = .leader
  · -- a second leader would share the actor's term
    rw [noteLeader_leader hact, update_of_ne]
    intro hterm
    have hmem : ∀ k, (t.nodes k).state = .leader → k ∈ members := by
      intro k hk
      by_contra hout
      exact absurd (hk.symm.trans (h.outsiders_step hother hmove k hout)) (by decide)
    refine hja (hunique t (by simp) t (by simp) j (hmem j hj) _ (hmem _ hact) hj hact ?_)
    rw [hother j hja, hterm]
  · rw [noteLeader_other hact]

theorem LogInv.led_step : ∀ T j, Led members (states ++ [t]) T j →
    1 ≤ T ∧ T ≤ (t.nodes j).currentTerm ∧
      ((t.nodes j).currentTerm = T → (t.nodes j).state ≠ .candidate) := by
  rintro T j ⟨hmem, u, hu, hlead⟩
  rcases mem_append.mp hu with hu | hu
  · have hold := h.led T j ⟨hmem, u, hu, hlead⟩
    by_cases hja : j = a.actor
    · rw [hja] at hold ⊢
      obtain ⟨hle, hcand⟩ := hmove.term_le
      refine ⟨hold.1, hold.2.1.trans hle, fun hT hc => ?_⟩
      -- candidate of a term it has led: then it was one before
      have hsame : (s.nodes a.actor).currentTerm = T := by omega
      exact hold.2.2 hsame (hcand hc (hT.trans hsame.symm))
    · rw [hother j hja]
      exact hold
  · obtain rfl := mem_singleton.mp hu
    obtain ⟨hstate, rfl⟩ := hlead
    refine ⟨(h.positive_step hother hmove j).2 (by rw [hstate]; decide), le_refl _, fun _ => ?_⟩
    rw [hstate]
    decide

/-- A prefix of a log stays in it, if it is on the line of any request that is accepted. -/
theorem LogInv.keeps (hcrash : ∀ i, a ≠ .restart i) {v : String} {part : List LogEntry}
    (hpart : part <+: (s.nodes v).log)
    (hline : ∀ req, (v, req) ∈ s.appendRequests → (s.nodes v).currentTerm ≤ req.term →
      (t.nodes v).currentTerm = req.term → part <+: canon req.term) : part <+: (t.nodes v).log := by
  by_cases hv : v = a.actor
  · subst hv
    cases hmove with
    | rest _ _ hlog | campaign _ _ _ _ hlog | follow _ _ hlog | win _ _ _ _ _ _ _ hlog =>
      rw [hlog]
      exact hpart
    | extend e _ _ _ hlog =>
      rw [hlog]
      exact hpart.trans (prefix_append _ _)
    | accept req _ hsent hknown hprev _ hterm hlog =>
      obtain ⟨-, L, q, hcarry⟩ := h.requests _ hsent
      obtain ⟨heq, hmatch⟩ := h.accepted hcarry hprev hlog
      rw [heq]
      exact prefix_merge_of_common hmatch hpart (hline req hsent hknown hterm) hcarry.canonical
    | restart haction => exact absurd haction (hcrash _)
  · rw [hother v hv]
    exact hpart

omit hother in
theorem LogInv.unled_step : ∀ T, (∀ i, ¬Led members (states ++ [t]) T i) →
    noteLeader canon (t.nodes a.actor) T = [] := by
  intro T hun
  have hold := h.unled T fun j hj => hun j (hj.mono (subset_append_left _ _))
  by_cases hact : (t.nodes a.actor).state = .leader
  · rw [noteLeader_leader hact, update_of_ne, hold]
    rintro rfl
    exact hun a.actor ⟨(h.active hmove (by rw [hact]; decide)).1, t, by simp, hact, rfl⟩
  · rw [noteLeader_other hact, hold]

end Step

theorem LogInv.requests_step {canon' : Canon} (h : LogInv members states canon s)
    (hs : s ∈ states) (hgrows : ∀ T, canon T <+: canon' T) (hrange : InRange s a)
    (hstep : step members s a = some t) :
    ∀ r ∈ t.appendRequests, Led members (states ++ [t]) r.2.term r.2.leaderID ∧
      ∃ L p, Carries canon' r.2 L p := by
  have hsub : states ⊆ states ++ [t] := subset_append_left _ _
  intro r hr
  rcases step_appendRequests hstep hr with hr | ⟨i, next, rfl, hi, -, hout⟩
  · obtain ⟨hled, L, p, hcarry⟩ := h.requests r hr
    exact ⟨hled.mono hsub, L, p, hcarry.mono hgrows⟩
  -- a new request carries the leader's log
  have hlead := (outgoing_cases hout).1
  obtain ⟨-, hterm, hid, -, p, hcarry⟩ := outgoing_carries (h.numbered_log i)
    (h.leaders i hlead) (fun hnone => by subst hnone; exact hrange hlead) hout
  refine ⟨?_, _, p, hcarry.mono hgrows⟩
  rw [hterm, hid, h.mesh.id]
  exact (h.led_of_leader hs hlead).mono hsub

/-- **One step keeps the log invariant.** -/
theorem logInv_step (hnodup : members.Nodup) (h : LogInv members states canon s) (hs : s ∈ states)
    (hunique : UniqueLeaders members (states ++ [t])) (hrange : InRange s a)
    (hstep : step members s a = some t) :
    LogInv members (states ++ [t]) (noteLeader canon (t.nodes a.actor)) t := by
  obtain ⟨hother, hmove⟩ := step_move hnodup h.mesh hstep
  have hnoted := h.noted hunique hmove
  exact {
    mesh := mesh_step hnodup h.mesh hstep
    canonical := hnoted.canonical
    numbered := hnoted.numbered
    coherent := forall_nodes hother (P := fun _ rn => Coherent term _ rn.log)
      hnoted.coherent fun j _ => (h.coherent j).mono hnoted.grows
    bounded := forall_nodes hother (P := fun _ rn => ∀ e ∈ rn.log, e.term ≤ rn.currentTerm)
      hnoted.bounded fun j _ => h.bounded j
    outsiders := h.outsiders_step hother hmove
    positive := h.positive_step hother hmove
    leaders := h.leaders_step hother hmove hunique
    led := h.led_step hother hmove
    unled := h.unled_step hmove
    requests := h.requests_step hs hnoted.grows hrange hstep }

end LogInv

/-! ## Whole runs -/

/-- Replication with a next index of the caller's choice. -/
def ChosenNext : Action → Prop
  | .replicate _ _ next => next ≠ none
  | _ => True

instance : ∀ a, Decidable (ChosenNext a) := by
  rintro ⟨⟩ <;> dsimp only [ChosenNext] <;> infer_instance

theorem logInv_run (hnodup : members.Nodup) :
    ∀ acts t, Cluster.Along members InRange acts → Cluster.run members acts = some t →
      UniqueLeaders members (Cluster.states members acts) →
      ∃ canon, LogInv members (Cluster.states members acts) canon t := by
  refine Lts.trace_induction ?_ ?_
  · exact fun _ => ⟨_, logInv_init hnodup⟩
  intro acts a t u _ hrun ih hrange hstep hunique
  have hstates := Cluster.states_concat hrun hstep
  rw [hstates] at hunique ⊢
  obtain ⟨canon, h⟩ := ih (hunique.mono (subset_append_left _ _))
  exact ⟨_, logInv_step hnodup h (Lts.exec_mem_trace hrun) hunique hrange hstep⟩

/-- Logs are numbered from 1, and two that hold an entry of one index and term are equal up to
it. -/
def LogsMatch (members : List String) (s : Cluster) : Prop :=
  (∀ i ∈ members, Numbered (s.nodes i).log) ∧
  ∀ i ∈ members, ∀ j ∈ members, ∀ e ∈ (s.nodes i).log, ∀ e' ∈ (s.nodes j).log,
    e.index = e'.index → e.term = e'.term →
      ∀ n, n ≤ e.index → entryAt (s.nodes i).log n = entryAt (s.nodes j).log n

theorem LogInv.logsMatch {s : Cluster} (h : LogInv members states canon s) :
    LogsMatch members s := by
  refine ⟨fun i _ => h.numbered_log i, ?_⟩
  intro i _ j _ e he e' he' hindex hterm n hn
  obtain ⟨k, hk⟩ := getElem?_of_mem he
  obtain ⟨k', hk'⟩ := getElem?_of_mem he'
  have hek := h.numbered_log i k e hk
  have hek' := h.numbered_log j k' e' hk'
  obtain rfl : k = k' := by omega
  have hequal := (h.coherent i).matching (h.coherent j) k e e' hk hk' hterm
  -- read both logs through their common prefix
  refine entryAt_congr ?_
  have hle : n.toNat ≤ k + 1 := by omega
  have htake := congrArg (List.take n.toNat) hequal
  rwa [take_take, take_take, min_eq_left hle] at htake

/-- **Log matching.** In every run in which at most one member is leader of a
term, with any votes, any requests from 1 to last index + 1 on, delivered in any
order, any number of times or never, and with restarts, all logs match in every
state. -/
theorem log_matching (members : List String) (acts : List Action) (hnodup : members.Nodup)
    (hnext : Cluster.Along members (fun _ a => ChosenNext a) acts)
    (hunique : UniqueLeaders members (Cluster.states members acts)) :
    ∀ s ∈ Cluster.states members acts, LogsMatch members s := by
  intro s hs
  obtain ⟨pre, hpre, hexec⟩ := Lts.mem_trace_iff.mp hs
  have hrange : Cluster.Along members InRange pre := by
    refine Lts.Along.mono ?_ (hnext.restrict hpre)
    intro t a ha
    cases a with
    | replicate i peer next =>
      cases next with
      | none => exact absurd rfl ha
      | some n => trivial
    | _ => trivial
  obtain ⟨canon, h⟩ :=
    logInv_run hnodup pre s hrange hexec (hunique.mono (Lts.trace_subset hpre))
  exact h.logsMatch

/-- `n1` appends in term 1 and reaches nobody, `n2` overwrites its log in term 2; `n3` takes the
entries, restarts and takes them again. -/
def overwriteRun : List Action :=
  let x : LogEntry := ⟨1, 2, "put", [1], 10⟩
  let y : LogEntry := ⟨2, 2, "put", [2], 11⟩
  let first : VoteRequest := ⟨1, "n1", 0, 0⟩
  let second : VoteRequest := ⟨2, "n2", 0, 0⟩
  [.electionTimeout "n1", .requestVotes "n1",
    .voteAnswer ⟨first, ["n2", "n3"], 1, 2⟩ "n2" true, .appendEntry "n1" "put" [0] 9,
    .electionTimeout "n2", .electionTimeout "n2", .requestVotes "n2",
    .voteAnswer ⟨second, ["n1", "n3"], 1, 2⟩ "n3" true,
    .appendEntry "n2" "put" [1] 10, .appendEntry "n2" "put" [2] 11,
    .replicate "n2" "n1" (some 1), .appendRequest "n1" ⟨2, "n2", 0, 0, [x, y], 0⟩,
    .replicate "n2" "n3" (some 1), .appendRequest "n3" ⟨2, "n2", 0, 0, [x, y], 0⟩,
    .restart "n3", .appendRequest "n3" ⟨2, "n2", 0, 0, [x, y], 0⟩,
    .replicate "n2" "n3" (some 3), .appendRequest "n3" ⟨2, "n2", 2, 2, [], 0⟩]

theorem log_matching_overwriteRun : ((Cluster.run ["n1", "n2", "n3"] overwriteRun).map fun s =>
        ["n1", "n2", "n3"].map fun i => (s.nodes i).log.map LogEntry.data) =
      some [[[1], [2]], [[1], [2]], [[1], [2]]] ∧
    ∀ s ∈ Cluster.states ["n1", "n2", "n3"] overwriteRun, LogsMatch ["n1", "n2", "n3"] s :=
  ⟨by decide +kernel, log_matching _ _ (by decide) (by decide +kernel) (by decide +kernel)⟩

end DistributedKV.Consensus
