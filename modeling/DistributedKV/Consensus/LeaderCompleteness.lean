import DistributedKV.Consensus.ElectionSafety
import DistributedKV.Consensus.LogMatching

/-!
# Leader completeness

What a majority has stored in the term it was created in is in the log of every later leader, as
an invariant of the present state. A position is *choosable* if a majority has stored it or may
still do so, because its term has not passed `T` yet; steps only take this away. A voter of `U > T`
that has stored a choosable position of `T` did so before it voted, and the candidate's log was at
least as up to date (`CompleteInv.dominate`).
-/

namespace DistributedKV.Consensus

open Lib List

/-- A run so far: the states it went through, the canonical logs, and where it
stands. -/
structure RunView where
  members : List String
  states : List Cluster
  canon : Canon
  now : Cluster

namespace RunView

variable (g : RunView)

/-- The run after one more step. -/
def next (a : Action) (t : Cluster) : RunView :=
  { members := g.members
    states := g.states ++ [t]
    canon := noteLeader g.canon (t.nodes a.actor)
    now := t }

/-- The log invariant of the run. -/
abbrev Logs : Prop := LogInv g.members g.states g.canon g.now

/-- Node `i` has led term `T`. -/
abbrev Led (T : Int) (i : String) : Prop :=
  Consensus.Led g.members g.states T i

/-- Node `p` has acknowledged position `k` to the leader of term `T`. -/
def Acked (T : Int) (p : String) (k : Nat) : Prop :=
  ∃ a ∈ g.now.appendResponses, a.1 = p ∧ a.2.2.success = true ∧ a.2.1.term = T ∧
    (k : Int) < a.2.1.prevLogIndex + a.2.1.entries.length

/-- Node `p` has stored position `k` of the term-`T` log. -/
def Stored (T : Int) (p : String) (k : Nat) : Prop :=
  g.Acked T p k ∨ (g.Led T p ∧ k < (g.canon T).length)

/-- A majority has stored the position. -/
def Chosen (T : Int) (k : Nat) : Prop :=
  ∃ Q, Majority g.members Q ∧ ∀ q ∈ Q, g.Stored T q k

/-- A majority has stored the position or may still do so. -/
def Choosable (T : Int) (k : Nat) : Prop :=
  ∃ Q, Majority g.members Q ∧ ∀ q ∈ Q, g.Stored T q k ∨ (g.now.nodes q).currentTerm ≤ T

/-- Position `k` of the term-`T` log was created in term `T`. -/
def Own (T : Int) (k : Nat) : Prop :=
  ∃ e, (g.canon T)[k]? = some e ∧ e.term = T

/-- The term-`T` log up to and including position `k`. -/
abbrev upTo (T : Int) (k : Nat) : List LogEntry := (g.canon T).take (k + 1)

theorem Chosen.choosable {g : RunView} {T : Int} {k : Nat} (h : g.Chosen T k) :
    g.Choosable T k := by
  obtain ⟨Q, hQ, hstored⟩ := h
  exact ⟨Q, hQ, fun q hq => Or.inl (hstored q hq)⟩

theorem Own.lt {g : RunView} {T : Int} {k : Nat} (h : g.Own T k) : k < (g.canon T).length := by
  obtain ⟨e, he, -⟩ := h
  exact (List.getElem?_eq_some_iff.mp he).1

end RunView

/-! ## The invariant -/

/-- A candidate log end is at least as up to date as a log: the rule of
`isLogUpToDate`. -/
def UpToDate (log : List LogEntry) (lastIndex lastTerm : Int) : Prop :=
  lastTermOf log < lastTerm ∨ (lastTerm = lastTermOf log ∧ lastIndexOf log ≤ lastIndex)

theorem upToDate_of_isLogUpToDate {rn : RaftNode} {lastIndex lastTerm : Int}
    (h : rn.isLogUpToDate lastIndex lastTerm = true) : UpToDate rn.log lastIndex lastTerm := by
  unfold RaftNode.isLogUpToDate at h
  split_ifs at h with hne
  · have hge : rn.getLastLogTerm ≤ lastTerm := by simpa using h
    exact Or.inl (lt_of_le_of_ne hge (Ne.symm hne))
  · have hge : rn.getLastLogIndex ≤ lastIndex := by simpa using h
    exact Or.inr ⟨not_not.mp hne, hge⟩

/-- Node `v` has granted `req`. -/
def Answered (s : Cluster) (v : String) (req : VoteRequest) : Prop :=
  ∃ a ∈ s.voteAnswers, a.1 = v ∧ a.2.1 = req ∧ a.2.2.voteGranted = true

/-- A candidate that waits for the answers to `req` still has the log it announced. -/
def Announced (rn : RaftNode) (req : VoteRequest) : Prop :=
  req.term ≤ rn.currentTerm ∧
    (rn.state = .candidate → rn.currentTerm = req.term →
      req.lastLogIndex = lastIndexOf rn.log ∧ req.lastLogTerm = lastTermOf rn.log)

/-- What a granted vote says: the voter has moved to the term of the request, and its log held
then what it had stored in earlier terms. -/
structure VoteRecord (g : RunView) (v : String) (req : VoteRequest) : Prop where
  moved : req.term ≤ (g.now.nodes v).currentTerm
  held : ∃ log, Coherent LogEntry.term g.canon log ∧
    UpToDate log req.lastLogIndex req.lastLogTerm ∧
    ∀ T k, T < req.term → g.Stored T v k → g.Own T k → g.Choosable T k → g.upTo T k <+: log

/-- What a successful append response says: the node has moved to the term of the request, which
carried a part of its leader's log. -/
structure AckRecord (g : RunView) (p : String) (req : AppendRequest) (resp : AppendResponse) :
    Prop where
  moved : req.term ≤ (g.now.nodes p).currentTerm
  term : resp.term = req.term
  carried : ∃ L q, Carries g.canon req L q

/-- The invariant behind leader completeness. -/
structure CompleteInv (g : RunView) : Prop where
  logs : g.Logs
  spawned : ∀ i ∈ g.now.spawned, i ∈ g.members
  rounds : ∀ r ∈ g.now.rounds, RoundInv g.members (Answered g.now) r
  announced : ∀ r ∈ g.now.rounds, Announced (g.now.nodes r.request.candidateID) r.request
  answers : ∀ a ∈ g.now.voteAnswers, a.2.2.voteGranted = true → VoteRecord g a.1 a.2.1
  acks : ∀ a ∈ g.now.appendResponses, a.2.2.success = true → AckRecord g a.1 a.2.1 a.2.2
  /-- a majority has moved to every term that was led -/
  quorum : ∀ U i, g.Led U i →
    ∃ V, Majority g.members V ∧ ∀ v ∈ V, U ≤ (g.now.nodes v).currentTerm
  complete : ∀ U i, g.Led U i → ∀ T k, T < U → g.Own T k → g.Choosable T k →
    g.upTo T k <+: inherited LogEntry.term g.canon U
  holds : ∀ T v k, g.Stored T v k → g.Own T k → g.Choosable T k →
    g.upTo T k <+: (g.now.nodes v).log

section CompleteInv

variable {g : RunView} {T U : Int} {k : Nat}

theorem CompleteInv.stored_lt (h : CompleteInv g) {p : String} (hst : g.Stored T p k) :
    k < (g.canon T).length := by
  rcases hst with ⟨a, ha, rfl, hsucc, rfl, hlt⟩ | ⟨-, hlt⟩
  · obtain ⟨L, q, hcarry⟩ := (h.acks a ha hsucc).carried
    have hle := hcarry.canonical.length_le
    rw [hcarry.last] at hlt
    omega
  · exact hlt

theorem CompleteInv.stored_term (h : CompleteInv g) {p : String} (hst : g.Stored T p k) :
    T ≤ (g.now.nodes p).currentTerm := by
  rcases hst with ⟨a, ha, rfl, hsucc, rfl, -⟩ | ⟨hled, -⟩
  · exact (h.acks a ha hsucc).moved
  · exact (h.logs.led T p hled).2.1

/-- A choosable own prefix lies on the line of every later leader. -/
theorem CompleteInv.later (h : CompleteInv g) {i : String} (hled : g.Led U i) (hle : T ≤ U)
    (hown : g.Own T k) (hch : g.Choosable T k) : g.upTo T k <+: g.canon U := by
  rcases lt_or_eq_of_le hle with hlt | rfl
  · exact (h.complete U i hled T k hlt hown hch).trans (inherited_sub U)
  · exact take_prefix _ _

/-- **Domination.** A log at least as up to date holds every choosable own prefix too. -/
theorem CompleteInv.dominate (h : CompleteInv g) {held log : List LogEntry}
    (hheld : Coherent LogEntry.term g.canon held) (hlog : Coherent LogEntry.term g.canon log)
    (hup : UpToDate held (lastIndexOf log) (lastTermOf log)) (hown : g.Own T k)
    (hch : g.Choosable T k) (hpart : g.upTo T k <+: held) : g.upTo T k <+: log := by
  obtain ⟨e, hek, rfl⟩ := hown
  obtain ⟨i, hled⟩ := h.logs.exists_led (ne_nil_of_mem (mem_of_getElem? hek))
  have hpos := (h.logs.led _ _ hled).1
  have hmem : e ∈ held := by
    refine hpart.subset (mem_of_getElem? (i := k) ?_)
    rw [getElem?_take_of_lt (Nat.lt_succ_self k)]
    exact hek
  -- the last entry of the log that holds the prefix is of the same or a later term
  obtain ⟨x, hx⟩ : ∃ x, held.getLast? = some x :=
    ⟨_, getLast?_eq_some_getLast (ne_nil_of_mem hmem)⟩
  have hex : e.term ≤ x.term := by
    have hsorted := h.logs.canonical.sorted_of_coherent hheld
    obtain ⟨init, rfl⟩ := getLast?_eq_some_iff.mp hx
    rcases mem_append.mp hmem with hinit | hlast
    · exact (pairwise_append.mp hsorted).2.2 e hinit x (mem_singleton_self x)
    · rw [mem_singleton.mp hlast]
  have hxterm := lastTermOf_of_getLast? hx
  -- so the other log is not empty either
  obtain ⟨y, hy⟩ : ∃ y, log.getLast? = some y := by
    cases hlast : log.getLast? with
    | some y => exact ⟨y, rfl⟩
    | none =>
      have hzero : lastTermOf log = 0 := by
        rw [lastTermOf, hlast]
        rfl
      rcases hup with hlt | ⟨heq, -⟩ <;> omega
  have hyterm := lastTermOf_of_getLast? hy
  have hyline := hlog.prefix_of_last hy
  have hxline := hheld.prefix_of_last hx
  rcases hup with hlt | ⟨heq, hidx⟩
  · -- a later last term: its leader inherited the prefix, and the log what it inherited
    obtain ⟨j, hj⟩ := h.logs.exists_led
      (ne_nil_of_mem (hyline.subset (mem_of_getLast? hy)))
    exact (h.complete _ j hj _ k (by omega) ⟨e, hek, rfl⟩ hch).trans
      (inherited_of_last hyline hy rfl)
  -- the same last term: the longer log extends the shorter one
  have hsame : y.term = x.term := by omega
  rw [hsame] at hyline
  have hnum : ∀ {l : List LogEntry} {q : Int}, l <+: g.canon q →
      lastIndexOf l = l.length := fun hl => ((h.logs.numbered _).restrict hl).lastIndexOf_eq
  rw [hnum hxline, hnum hyline] at hidx
  exact hpart.trans (prefix_of_prefix_length_le hxline hyline (by omega))

end CompleteInv

/-! ## What one step changes -/

/-- A successful append response: what the node took in. -/
theorem accepted_of_success {rn : RaftNode} {req : AppendRequest} {resp : AppendResponse}
    (hresp : (rn.handleAppendEntries .healthy req).2 = some resp) (hsucc : resp.success = true) :
    rn.currentTerm ≤ req.term ∧ rn.prevMismatch req = false ∧ resp.term = req.term ∧
      (rn.handleAppendEntries .healthy req).1.currentTerm = req.term ∧
      (rn.handleAppendEntries .healthy req).1.state = .follower ∧
      mergedLog rn.log req = some (rn.handleAppendEntries .healthy req).1.log := by
  rcases rn.handleAppendEntries_cases req with ⟨-, -, r, hr, hno⟩ |
    ⟨-, -, ⟨-, r, hr, hno⟩ | ⟨-, hnone⟩⟩ |
    ⟨hle, hprev, log, r, hlog, hr, -, hterm, hrn⟩
  iterate 2
    obtain rfl := Option.some.inj (hr.symm.trans hresp)
    exact absurd hsucc (by simp [hno])
  · exact absurd (hnone.symm.trans hresp) (by simp)
  obtain rfl := Option.some.inj (hr.symm.trans hresp)
  refine ⟨hle, hprev, hterm, ?_, ?_, ?_⟩ <;> rw [hrn]
  · rfl
  · rfl
  · exact hlog

/-- The canonical log of a term changes only if the actor leads that term now. -/
theorem RunView.canon_next {g : RunView} {a : Action} {t : Cluster} {T : Int}
    (hno : ¬Leads t a.actor T) : (g.next a t).canon T = g.canon T := by
  show noteLeader g.canon (t.nodes a.actor) T = _
  by_cases hact : (t.nodes a.actor).state = .leader
  · rw [noteLeader_leader hact, Function.update_of_ne]
    exact fun heq => hno ⟨hact, heq.symm⟩
  · rw [noteLeader_other hact]

/-- A step of a run with one leader per term. -/
structure StepOf (g : RunView) (a : Action) (t : Cluster) : Prop where
  inv : CompleteInv g
  logs : (g.next a t).Logs
  noted : Noted g.canon (t.nodes a.actor)
  present : g.now ∈ g.states
  unique : UniqueLeaders g.members (g.states ++ [t])
  step : Cluster.step g.members g.now a = some t
  other : ∀ j, j ≠ a.actor → t.nodes j = g.now.nodes j
  move : Move g.members g.now a (g.now.nodes a.actor) (t.nodes a.actor)

namespace StepOf

variable {g : RunView} {a : Action} {t : Cluster} {T U : Int} {k : Nat}

theorem term_le (h : StepOf g a t) (j : String) :
    (g.now.nodes j).currentTerm ≤ (t.nodes j).currentTerm := by
  by_cases hj : j = a.actor
  · rw [hj]
    exact h.move.term_le.1
  · rw [h.other j hj]

/-- What a canonical log holds it goes on to hold. -/
theorem upTo_eq (h : StepOf g a t) (hk : k < (g.canon T).length) :
    (g.next a t).upTo T k = g.upTo T k := by
  have hgrow : g.canon T <+: (g.next a t).canon T := h.noted.grows T
  exact (prefix_take_eq hgrow hk).symm

theorem own_mono (h : StepOf g a t) (hown : g.Own T k) : (g.next a t).Own T k := by
  obtain ⟨e, he, hterm⟩ := hown
  exact ⟨e, prefix_getElem? (h.noted.grows T) he, hterm⟩

theorem own_back (h : StepOf g a t) (hk : k < (g.canon T).length)
    (hown : (g.next a t).Own T k) : g.Own T k := by
  obtain ⟨e, he, hterm⟩ := hown
  have hold := prefix_getElem? (h.noted.grows T) (getElem?_eq_getElem hk)
  have heq : (g.canon T)[k] = e := Option.some.inj (hold.symm.trans he)
  exact ⟨e, by rw [getElem?_eq_getElem hk, heq], hterm⟩

variable {p i v : String} {req : VoteRequest}

section

variable (h : StepOf g a t)
include h

theorem stored_mono (hst : g.Stored T p k) : (g.next a t).Stored T p k := by
  rcases hst with ⟨r, hr, hrest⟩ | ⟨hled, hlt⟩
  · exact Or.inl ⟨r, step_appendResponses_subset h.step hr, hrest⟩
  · exact Or.inr ⟨hled.mono (subset_append_left _ _), hlt.trans_le (h.noted.grows T).length_le⟩

theorem chosen_mono (hch : g.Chosen T k) : (g.next a t).Chosen T k := by
  obtain ⟨Q, hQ, hst⟩ := hch
  exact ⟨Q, hQ, fun q hq => h.stored_mono (hst q hq)⟩

/-- What is stored now was stored before, or by a node whose term was not past `T` and which
holds the prefix. -/
theorem stored_cases (hst : (g.next a t).Stored T p k) :
    g.Stored T p k ∨ ((g.now.nodes p).currentTerm ≤ T ∧
      (g.next a t).upTo T k <+: (t.nodes p).log) := by
  rcases hst with ⟨r, hr, rfl, hsucc, rfl, hlt⟩ | ⟨hled, hlt⟩
  · rcases step_appendResponses h.step hr with hold | ⟨-, hsent, hresp, hnode⟩
    · exact Or.inl (Or.inl ⟨r, hold, rfl, hsucc, rfl, hlt⟩)
    -- a request was just accepted: the node now holds the leader's log
    obtain ⟨hle, hprev, -, -, -, hlog⟩ := accepted_of_success hresp hsucc
    obtain ⟨-, L, q, hcarry⟩ := h.inv.logs.requests _ hsent
    refine Or.inr ⟨hle, ?_⟩
    rw [hnode]
    rw [hcarry.last] at hlt
    have hline : L <+: (g.next a t).canon r.2.1.term :=
      hcarry.canonical.trans (h.noted.grows _)
    refine List.IsPrefix.trans ?_ (h.inv.logs.accepted_prefix hcarry hprev hlog)
    rw [RunView.upTo, ← prefix_take_eq hline (k := k + 1) (by omega)]
    exact take_prefix _ _
  by_cases hnow : Leads t p T
  · refine Or.inr ⟨?_, ?_⟩
    · rw [← hnow.2]
      exact h.term_le p
    have hlog : (t.nodes p).log = (g.next a t).canon (t.nodes p).currentTerm :=
      h.logs.leaders p hnow.1
    rw [hlog, hnow.2]
    exact take_prefix _ _
  -- led before, and the canonical log did not change
  have hsame : (g.next a t).canon T = g.canon T := by
    refine RunView.canon_next fun hact => ?_
    have hactor : (g.next a t).Led T a.actor :=
      ⟨h.inv.logs.active h.move (by rw [hact.1]; decide) |>.1, t, by simp [RunView.next], hact⟩
    exact hnow (Led.unique h.unique hactor hled ▸ hact)
  rw [hsame] at hlt
  refine Or.inl (Or.inr ⟨?_, hlt⟩)
  obtain ⟨hmem, u, hu, hlead⟩ := hled
  rcases mem_append.mp hu with hu | hu
  · exact ⟨hmem, u, hu, hlead⟩
  · exact absurd (mem_singleton.mp hu ▸ hlead) hnow

/-- A node that has passed the term before the step stores nothing new for it. -/
theorem stored_back (hpast : T < (g.now.nodes p).currentTerm)
    (hst : (g.next a t).Stored T p k) : g.Stored T p k := by
  rcases h.stored_cases hst with hold | ⟨hle, -⟩
  · exact hold
  · omega

/-- **Steps only take choosability away.** -/
theorem choosable_back (hch : (g.next a t).Choosable T k) : g.Choosable T k := by
  obtain ⟨Q, hQ, hst⟩ := hch
  refine ⟨Q, hQ, fun q hq => ?_⟩
  rcases hst q hq with hst | hle
  · exact (h.stored_cases hst).imp_right fun hnew => hnew.1
  · exact Or.inr ((h.term_le q).trans hle)

theorem inherited_eq (hled : g.Led U i) :
    inherited LogEntry.term (g.next a t).canon U = inherited LogEntry.term g.canon U := by
  have hsame : (g.next a t).canon U = g.canon U →
      inherited LogEntry.term (g.next a t).canon U = inherited LogEntry.term g.canon U := by
    intro heq
    unfold inherited
    rw [heq]
  by_cases hact : Leads t a.actor U
  · obtain ⟨hlead, rfl⟩ := hact
    have hnow : (g.next a t).canon (t.nodes a.actor).currentTerm = (t.nodes a.actor).log :=
      (h.logs.leaders a.actor hlead).symm
    cases h.move with
    | rest hstate hterm hlog =>
      refine hsame ?_
      rw [hnow, hlog, hterm]
      exact h.inv.logs.leaders _ (hstate.symm.trans hlead)
    | win round peer granted _ hcand hstate hterm _ =>
      rw [hterm] at hled
      exact absurd hled (h.inv.logs.unled_of_win h.unique hcand hstate hterm i)
    | extend e hold _ hterm hlog heterm _ =>
      refine inherited_concat (e := e) ?_ (by rw [heterm, hterm])
      rw [hnow, hlog, hterm, h.inv.logs.leaders _ hold]
    | campaign _ _ hstate | follow hstate | accept _ _ _ _ _ hstate | restart _ hstate =>
      exact absurd (hlead.symm.trans hstate) (by decide)
  · exact hsame (RunView.canon_next hact)

/-- A prefix that lies on the line of all later leaders stays in the log. -/
theorem keeps (hcrash : ∀ i, a ≠ .restart i) {p : List LogEntry} (hp : p <+: (g.now.nodes v).log)
    (hlater : ∀ U i, g.Led U i → (g.now.nodes v).currentTerm ≤ U → p <+: g.canon U) :
    p <+: (t.nodes v).log :=
  h.inv.logs.keeps h.other h.move hcrash hp fun req hsent hknown _ =>
    hlater req.term _ (h.inv.logs.requests _ hsent).1 hknown

/-- **Stored prefixes are held**, after one more step. -/
theorem holds (hcrash : ∀ i, a ≠ .restart i) (hst : (g.next a t).Stored T v k)
    (hown : (g.next a t).Own T k) (hch : (g.next a t).Choosable T k) :
    (g.next a t).upTo T k <+: (t.nodes v).log := by
  rcases h.stored_cases hst with hold | ⟨-, hnew⟩
  · have hk := h.inv.stored_lt hold
    have hown := h.own_back hk hown
    have hch := h.choosable_back hch
    rw [h.upTo_eq hk]
    refine h.keeps hcrash (h.inv.holds T v k hold hown hch) ?_
    intro U i hled hle
    exact h.inv.later hled ((h.inv.stored_term hold).trans hle) hown hch
  · exact hnew

/-- What may be chosen of a term has been stored in every majority that has passed the term. -/
theorem stored_of_past (hch : (g.next a t).Choosable T k) {V : List String}
    (hV : Majority g.members V) (hpast : ∀ v ∈ V, T < (g.now.nodes v).currentTerm) :
    ∃ v ∈ V, g.Stored T v k := by
  obtain ⟨Q, hQ, hst⟩ := hch
  obtain ⟨v, hvV, hvQ⟩ := hV.intersect hQ
  refine ⟨v, hvV, ?_⟩
  rcases hst v hvQ with hst | hle
  · exact h.stored_back (hpast v hvV) hst
  · exact absurd ((h.term_le v).trans hle) (not_le.mpr (hpast v hvV))

/-- **Earlier leaders stay complete**, after one more step. -/
theorem complete_of_led (hled : g.Led U i) (hlt : T < U)
    (hown : (g.next a t).Own T k) (hch : (g.next a t).Choosable T k) :
    (g.next a t).upTo T k <+: inherited LogEntry.term (g.next a t).canon U := by
  obtain ⟨V, hV, hmoved⟩ := h.inv.quorum U i hled
  obtain ⟨v, -, hstored⟩ := h.stored_of_past hch hV fun v hv => hlt.trans_le (hmoved v hv)
  have hk := h.inv.stored_lt hstored
  rw [h.upTo_eq hk, h.inherited_eq hled]
  exact h.inv.complete U i hled T k hlt (h.own_back hk hown) (h.choosable_back hch)

theorem voteRecord (hrec : VoteRecord g v req) : VoteRecord (g.next a t) v req := by
  obtain ⟨hmoved, log, hcoh, hup, hheld⟩ := hrec
  refine ⟨hmoved.trans (h.term_le v), log, hcoh.mono h.noted.grows, hup, ?_⟩
  intro T k hT hst hown hch
  have hst := h.stored_back (hT.trans_le hmoved) hst
  have hk := h.inv.stored_lt hst
  rw [h.upTo_eq hk]
  exact hheld T k hT hst (h.own_back hk hown) (h.choosable_back hch)

/-- An acknowledgement stays on record, and a new one is recorded. -/
theorem ackRecord {r : String × AppendRequest × AppendResponse}
    (hr : r ∈ t.appendResponses) (hsucc : r.2.2.success = true) :
    AckRecord (g.next a t) r.1 r.2.1 r.2.2 := by
  rcases step_appendResponses h.step hr with hold | ⟨-, hsent, hresp, hnode⟩
  · obtain ⟨hmoved, hterm, L, q, hcarry⟩ := h.inv.acks r hold hsucc
    exact ⟨hmoved.trans (h.term_le _), hterm, L, q, hcarry.mono h.noted.grows⟩
  obtain ⟨-, -, hterm, hcur, -, -⟩ := accepted_of_success hresp hsucc
  obtain ⟨-, L, q, hcarry⟩ := h.inv.logs.requests _ hsent
  refine ⟨?_, hterm, L, q, hcarry.mono h.noted.grows⟩
  show r.2.1.term ≤ (t.nodes r.1).currentTerm
  rw [hnode, hcur]

end

theorem announced (h : StepOf g a t) {c : String} (hann : Announced (g.now.nodes c) req) :
    Announced (t.nodes c) req := by
  obtain ⟨hle, hends⟩ := hann
  refine ⟨hle.trans (h.term_le c), fun hcand hterm => ?_⟩
  by_cases hc : c = a.actor
  · subst hc
    cases h.move with
    | rest hstate hsame hlog =>
      rw [hlog]
      exact hends (hstate.symm.trans hcand) (hsame.symm.trans hterm)
    | campaign _ _ _ hnext => omega
    | follow hstate | win _ _ _ _ _ hstate | extend _ _ hstate | accept _ _ _ _ _ hstate
    | restart _ hstate => exact absurd (hstate.symm.trans hcand) (by decide)
  · rw [h.other c hc] at hcand hterm ⊢
    exact hends hcand hterm

end StepOf

/-! ## Votes and elections -/

theorem Answered.mono {s t : Cluster} (hsub : s.voteAnswers ⊆ t.voteAnswers) {v : String}
    {req : VoteRequest} (h : Answered s v req) : Answered t v req := by
  obtain ⟨a, ha, hrest⟩ := h
  exact ⟨a, hsub ha, hrest⟩

namespace StepOf

variable {g : RunView} {a : Action} {t : Cluster} {T U : Int} {k : Nat}

/-- A vote that was just granted is recorded: the voter's log is the one it has. -/
theorem voteRecord_new (h : StepOf g a t) {v : String} {req : VoteRequest}
    (hyes : ((g.now.nodes v).handleVoteRequest .healthy req).2.voteGranted = true)
    (hnode : t.nodes v = ((g.now.nodes v).handleVoteRequest .healthy req).1) :
    VoteRecord (g.next a t) v req := by
  rcases (g.now.nodes v).handleVoteRequest_cases req with ⟨-, hno⟩ | ⟨-, -, hno⟩ |
    ⟨-, -, hup, -, hrn⟩
  · exact absurd hyes (by simp [hno])
  · exact absurd hyes (by simp [hno])
  have hterm : (t.nodes v).currentTerm = req.term := by rw [hnode, hrn]
  have hlog : (t.nodes v).log = (g.now.nodes v).log := by rw [hnode, hrn]
  refine ⟨le_of_eq hterm.symm, (g.now.nodes v).log, ?_, upToDate_of_isLogUpToDate hup, ?_⟩
  · exact (h.inv.logs.coherent v).mono h.noted.grows
  intro T k _ hst hown hch
  rcases h.stored_cases hst with hold | ⟨-, hnew⟩
  · have hk := h.inv.stored_lt hold
    rw [h.upTo_eq hk]
    exact h.inv.holds T v k hold (h.own_back hk hown) (h.choosable_back hch)
  · exact hlog ▸ hnew

section Election

variable (h : StepOf g a t) (hodd : g.members.length % 2 = 1) (hgen : Genuine g.now a)
  {round : VoteRound} {peer : String} {granted : Bool}
  (haction : a = .voteAnswer round peer granted)
  (hcand : (g.now.nodes a.actor).state = .candidate) (hlead : (t.nodes a.actor).state = .leader)
include h hodd hgen haction hcand hlead

/-- **An election.** The majority behind a new leader: itself, and nodes that granted the
request of its round, whose log end is still its own. -/
theorem elected :
    (g.now.nodes a.actor).currentTerm = round.request.term ∧
      round.request.lastLogIndex = lastIndexOf (g.now.nodes a.actor).log ∧
      round.request.lastLogTerm = lastTermOf (g.now.nodes a.actor).log ∧
      ∃ V, Majority g.members (a.actor :: V) ∧ ∀ v ∈ V, VoteRecord g v round.request := by
  subst haction
  obtain ⟨hround, hpeer, hterm, hfull⟩ := step_win h.step hcand hlead
  obtain ⟨hidx, hlast⟩ := (h.inv.announced round hround).2 hcand hterm
  have hgranted : granted = true → Answered g.now peer round.request := by
    obtain ⟨r, hr, rfl, hreq, hgranted⟩ := hgen
    exact fun hyes => ⟨r, hr, rfl, hreq, hgranted.trans hyes⟩
  have hanswer := (h.inv.rounds round hround).answer hpeer hgranted
  obtain ⟨V, hmaj, hV⟩ := hanswer.quorum hodd hfull
  refine ⟨hterm, hidx, hlast, V, hmaj, fun v hv => ?_⟩
  obtain ⟨r, hr, rfl, hreq, hyes⟩ := hV v hv
  have hrec := h.inv.answers r hr hyes
  rw [hreq] at hrec
  exact hrec

/-- **A new leader is complete.** -/
theorem complete_of_win
    (hterm : (t.nodes a.actor).currentTerm = (g.now.nodes a.actor).currentTerm)
    (hlog : (t.nodes a.actor).log = (g.now.nodes a.actor).log)
    (hlt : T < (t.nodes a.actor).currentTerm) (hown : (g.next a t).Own T k)
    (hch : (g.next a t).Choosable T k) : (g.next a t).upTo T k <+:
      inherited LogEntry.term (g.next a t).canon (t.nodes a.actor).currentTerm := by
  obtain ⟨hround, hidx, hlast, V, hmaj, hV⟩ := h.elected hodd hgen haction hcand hlead
  -- the new canonical log is the candidate's, all of it inherited
  have hempty : g.canon (t.nodes a.actor).currentTerm = [] := by
    rw [hterm]
    exact h.inv.logs.unled _ (h.inv.logs.unled_of_win h.unique hcand hlead hterm)
  have hcanon : (g.next a t).canon (t.nodes a.actor).currentTerm = (g.now.nodes a.actor).log :=
    (h.logs.leaders a.actor hlead).symm.trans hlog
  have hinh : inherited LogEntry.term (g.next a t).canon (t.nodes a.actor).currentTerm =
      (g.now.nodes a.actor).log := by
    rw [inherited, hcanon, takeWhile_eq_self_iff]
    exact fun e he => decide_eq_true ((h.inv.logs.coherent a.actor).key_ne hempty he)
  rw [hinh]
  -- a voter that has stored the position stored it before
  have hpast : ∀ v ∈ a.actor :: V, T < (g.now.nodes v).currentTerm := by
    intro v hv
    rcases mem_cons.mp hv with rfl | hv
    · omega
    · have := (hV v hv).moved
      omega
  obtain ⟨v, hvV, hstored⟩ := h.stored_of_past hch hmaj hpast
  have hk := h.inv.stored_lt hstored
  have hown := h.own_back hk hown
  have hch := h.choosable_back hch
  rw [h.upTo_eq hk]
  rcases mem_cons.mp hvV with rfl | hv
  · exact h.inv.holds T _ k hstored hown hch
  -- its log held the prefix, and the candidate's is at least as up to date
  obtain ⟨held, hcoh, hup, hheld⟩ := (hV v hv).held
  rw [hidx, hlast] at hup
  exact h.inv.dominate hcoh (h.inv.logs.coherent a.actor) hup hown hch
    (hheld T k (by omega) hstored hown hch)

end Election

end StepOf

/-! ## One step -/

/-- Steps of a run without crashes. -/
def CrashFree : Action → Prop
  | .restart _ => False
  | _ => True

instance : ∀ a, Decidable (CrashFree a) := by
  rintro ⟨⟩ <;> dsimp only [CrashFree] <;> infer_instance

theorem CrashFree.ne_restart {a : Action} (h : CrashFree a) : ∀ i, a ≠ .restart i := by
  rintro i rfl
  exact h

namespace StepOf

variable {g : RunView} {a : Action} {t : Cluster}

theorem led_cases (h : StepOf g a t) {U : Int} {i : String} (hled : (g.next a t).Led U i) :
    g.Led U i ∨ (i = a.actor ∧ U = (t.nodes a.actor).currentTerm ∧
        ∃ round peer granted, a = .voteAnswer round peer granted ∧
          (g.now.nodes a.actor).state = .candidate ∧ (t.nodes a.actor).state = .leader ∧
          (t.nodes a.actor).currentTerm = (g.now.nodes a.actor).currentTerm ∧
          (t.nodes a.actor).log = (g.now.nodes a.actor).log) := by
  obtain ⟨hmem, u, hu, hlead, hterm⟩ := hled
  rcases mem_append.mp hu with hu | hu
  · exact Or.inl ⟨hmem, u, hu, hlead, hterm⟩
  obtain rfl := mem_singleton.mp hu
  have hold : (g.now.nodes i).state = .leader → (g.now.nodes i).currentTerm = U →
      g.Led U i := fun hl hT => ⟨hmem, g.now, h.present, hl, hT⟩
  by_cases hi : i = a.actor
  · subst hi
    cases h.move with
    | rest hstate hsame _ =>
      exact Or.inl (hold (hstate.symm.trans hlead) (hsame.symm.trans hterm))
    | extend _ hl _ hsame => exact Or.inl (hold hl (hsame.symm.trans hterm))
    | win round peer granted haction hcand _ hsame hlog =>
      exact Or.inr ⟨rfl, hterm.symm, round, peer, granted, haction, hcand, hlead, hsame, hlog⟩
    | campaign _ _ hstate | follow hstate | accept _ _ _ _ _ hstate | restart _ hstate =>
      exact absurd (hlead.symm.trans hstate) (by decide)
  · rw [h.other i hi] at hlead hterm
    exact Or.inl (hold hlead hterm)

theorem rounds_next (h : StepOf g a t) (hnodup : g.members.Nodup) (hgen : Genuine g.now a) :
    ∀ r ∈ t.rounds, RoundInv g.members (Answered t) r := by
  have hsub := step_voteAnswers_subset h.step
  intro r hr
  rcases step_rounds h.step hr with hr | ⟨i, hi, rfl, -⟩ |
    ⟨round, peer, granted, rfl, hround, hpeer, rfl⟩
  · exact (h.inv.rounds r hr).mono fun v req => Answered.mono hsub
  · exact roundInv_requestVotes h.inv.logs.mesh hnodup (h.inv.spawned i hi)
  refine ((h.inv.rounds round hround).mono fun v req => Answered.mono hsub).answer hpeer ?_
  obtain ⟨ans, hans, rfl, hreq, hgranted⟩ := hgen
  exact fun hyes => ⟨ans, hsub hans, rfl, hreq, hgranted.trans hyes⟩

theorem announced_next (h : StepOf g a t) :
    ∀ r ∈ t.rounds, Announced (t.nodes r.request.candidateID) r.request := by
  intro r hr
  rcases step_rounds h.step hr with hr | ⟨i, hi, rfl, hnode⟩ |
    ⟨round, peer, granted, rfl, hround, hpeer, rfl⟩
  · exact h.announced (h.inv.announced r hr)
  · show Announced (t.nodes (g.now.nodes i).id) _
    rw [h.inv.logs.mesh.id, hnode]
    exact ⟨le_refl _, fun _ _ => ⟨rfl, rfl⟩⟩
  · exact h.announced (h.inv.announced round hround)

/-- **One step keeps the invariant.** -/
theorem completeInv (h : StepOf g a t) (hnodup : g.members.Nodup)
    (hodd : g.members.length % 2 = 1) (hgen : Genuine g.now a) (hfree : CrashFree a) :
    CompleteInv (g.next a t) := by
  refine ⟨h.logs, ?_, h.rounds_next hnodup hgen, h.announced_next, ?_,
    fun r hr => h.ackRecord hr, ?_, ?_, ?_⟩
  · intro i hi
    rcases step_spawned h.step hi with hi | hi
    · exact h.inv.spawned i hi
    · exact hi
  · intro r hr hyes
    rcases step_voteAnswers h.step hr with hr | ⟨hresp, hnode⟩
    · exact h.voteRecord (h.inv.answers r hr hyes)
    · rw [hresp] at hyes
      exact h.voteRecord_new hyes hnode
  · intro U i hled
    rcases h.led_cases hled with hold |
      ⟨rfl, rfl, round, peer, granted, haction, hcand, hlead, hterm, -⟩
    · obtain ⟨V, hV, hmoved⟩ := h.inv.quorum U i hold
      exact ⟨V, hV, fun v hv => (hmoved v hv).trans (h.term_le v)⟩
    obtain ⟨hround, -, -, V, hmaj, hV⟩ := h.elected hodd hgen haction hcand hlead
    refine ⟨_, hmaj, fun v hv => ?_⟩
    rcases mem_cons.mp hv with rfl | hv
    · exact le_refl _
    · rw [hterm, hround]
      exact (hV v hv).moved.trans (h.term_le v)
  · intro U i hled T k hlt hown hch
    rcases h.led_cases hled with hold |
      ⟨rfl, rfl, round, peer, granted, haction, hcand, hlead, hterm, hlog⟩
    · exact h.complete_of_led hold hlt hown hch
    · exact h.complete_of_win hodd hgen haction hcand hlead hterm hlog hlt hown hch
  · exact fun T v k hst hown hch => h.holds hfree.ne_restart hst hown hch

end StepOf

open Cluster

theorem completeInv_init {members : List String} (hnodup : members.Nodup) :
    CompleteInv ⟨members, [init members], fun _ => [], init members⟩ where
  logs := logInv_init hnodup
  spawned := by simp [init]
  rounds := by simp [init]
  announced := by simp [init]
  answers := by simp [init]
  acks := by simp [init]
  quorum U i hled := by
    obtain ⟨-, s, hs, hlead, -⟩ := hled
    rw [mem_singleton.mp hs, init_nodes hnodup] at hlead
    exact absurd hlead (by simp [newRaftNode])
  complete U i hled T k _ hown _ := absurd hown.lt (by simp)
  holds T v k _ hown _ := absurd hown.lt (by simp)

end DistributedKV.Consensus
