import DistributedKV.Lib.Lts
import DistributedKV.Consensus.NodeSpec

/-!
# The log across a restart

A node keeps its log in memory (`rn.log`) and in `LogStorage`, which is written to disk. What a
restart would bring back is compared with its log. `NewRaftNode` reads term and vote back but leaves
`rn.log` empty, and `handleAppendEntries` merges a request into `rn.log` but hands all of its
entries to `LogStorage.AppendEntries`, which only appends: entries that were already there are
stored twice, and entries that a conflict removed stay.
-/

namespace DistributedKV.Consensus

variable (rn : RaftNode)

open Lib List Option

/-- The calls that work on the log, and those that move a node between roles. -/
inductive LogCall where
  | appendEntry (entryType : String) (data : List UInt8) (now : Int)
  | handleAppendEntries (req : AppendRequest)
  | handleVoteRequest (req : VoteRequest)
  | startElection
  | becomeLeader

/-- One call, every disk write succeeding; a panic ends the run. -/
def LogCall.run : LogCall → Option RaftNode
  | .appendEntry entryType data now => some (rn.appendEntry .healthy entryType data now).1
  | .handleAppendEntries req =>
    let out := rn.handleAppendEntries .healthy req
    out.2.map fun _ => out.1
  | .handleVoteRequest req => some (rn.handleVoteRequest .healthy req).1
  | .startElection => some (rn.startElection .healthy)
  | .becomeLeader => some rn.becomeLeader

/-- The node that a restart builds from the files. -/
def rebuilt : RaftNode := newRaftNode rn.id rn.files

/-- The node is not leader, or the request is empty, refused, or panics on a negative index. -/
def StoresNothing : LogCall → Prop
  | .appendEntry .. => rn.state ≠ .leader
  | .handleAppendEntries req => req.entries = [] ∨ req.term < rn.currentTerm ∨
    rn.prevMismatch req = true ∨ req.prevLogIndex < 0
  | _ => True

/-- The call stores nothing, or stores at the end of the log. -/
def StoresAtEnd : LogCall → Prop
  | .handleAppendEntries req =>
    StoresNothing rn (.handleAppendEntries req) ∨ (rn.log.length : Int) ≤ req.prevLogIndex
  | _ => True

instance (rn : RaftNode) : ∀ call, Decidable (StoresNothing rn call) := fun call => by
  cases call <;> dsimp only [StoresNothing] <;> infer_instance

/-! ## What a call does to the two copies -/

section Calls

variable {rn rn' : RaftNode} {call : LogCall}

/-- The entries on disk are those of the storage in memory. -/
def Synced (rn : RaftNode) : Prop := rn.logStorage.logFile.getD [] = rn.logStorage.entries

/-- A request that is refused or empty leaves both copies alone. -/
theorem handleAppendEntries_refused {req : AppendRequest}
    (h : StoresNothing rn (.handleAppendEntries req)) :
    (rn.handleAppendEntries .healthy req).1.log = rn.log ∧
      (rn.handleAppendEntries .healthy req).1.logStorage = rn.logStorage := by
  rcases rn.handleAppendEntries_cases req with ⟨-, hrn, -⟩ | ⟨-, hrn, -⟩ |
    ⟨hle, hprev, log, r, hlog, -, -, -, hrn⟩
  · rw [hrn]
    exact ⟨rfl, rfl⟩
  · rw [hrn]
    exact ⟨rfl, rfl⟩
  -- accepted: only an empty request stores nothing
  have hnil : req.entries = [] := by
    rcases h with hnil | hstale | hmis | hneg
    · exact hnil
    · omega
    · exact absurd (hprev.symm.trans hmis) (by decide)
    by_contra hne
    rw [mergedLog_negative hneg hne] at hlog
    exact absurd hlog (by simp)
  rw [mergedLog, if_pos hnil] at hlog
  cases hlog
  rw [hrn]
  exact ⟨rfl, if_pos hnil⟩

theorem run_storesNothing (h : StoresNothing rn call) (hrun : call.run rn = some rn') :
    rn'.log = rn.log ∧ rn'.logStorage = rn.logStorage := by
  cases call with
  | appendEntry entryType data now =>
    cases hrun
    rw [RaftNode.appendEntry_not_leader h]
    exact ⟨rfl, rfl⟩
  | handleAppendEntries req =>
    obtain ⟨resp, -, rfl⟩ := map_eq_some_iff.mp hrun
    exact handleAppendEntries_refused h
  | handleVoteRequest req =>
    cases hrun
    rcases rn.handleVoteRequest_cases req with ⟨hrn, -⟩ | ⟨-, hrn, -⟩ | ⟨-, -, -, -, hrn⟩ <;>
    · rw [hrn]
      exact ⟨rfl, rfl⟩
  | startElection =>
    cases hrun
    exact ⟨rfl, rfl⟩
  | becomeLeader =>
    cases hrun
    exact ⟨rfl, rfl⟩

/-- The entries a call hands to the storage. -/
def LogCall.stores (rn : RaftNode) : LogCall → List LogEntry
  | .appendEntry entryType data now => [rn.newEntry entryType data now]
  | .handleAppendEntries req => req.entries
  | _ => []

/-- What the log becomes: the entries at its end, or merged into it. -/
theorem mergedLog_cases (log : List LogEntry) {req : AppendRequest}
    (hne : req.entries ≠ []) (hprev : 0 ≤ req.prevLogIndex) :
    ∃ log', mergedLog log req = some log' ∧ log' ≠ [] ∧
      (log' = log ++ req.entries ↔ (log.length : Int) ≤ req.prevLogIndex) := by
  by_cases hpast : (log.length : Int) ≤ req.prevLogIndex
  · exact ⟨_, mergedLog_past hpast, by simp [hne], fun _ => hpast, fun _ => rfl⟩
  obtain ⟨p, hp⟩ : ∃ p : Nat, req.prevLogIndex = p := ⟨req.prevLogIndex.toNat, by omega⟩
  have hlt : p < log.length := by omega
  refine ⟨_, mergedLog_eq hp (le_of_lt hlt), ?_, fun heq => absurd heq ?_, fun h => absurd h hpast⟩
  · -- the merged part is at least as long as the request
    refine append_ne_nil_of_right_ne_nil _ (ne_nil_of_length_pos ?_)
    exact (length_pos_of_ne_nil hne).trans_le (length_le_merge _ _)
  -- inside the log an entry is kept once or replaced, so the result is shorter
  intro heq
  have hlen := congrArg List.length heq
  have hshort : (merge LogEntry.term (log.drop p) req.entries).length <
      (log.drop p).length + req.entries.length :=
    length_merge_lt (ne_nil_of_length_pos (by rw [length_drop]; omega)) hne
  simp only [length_append, length_take, length_drop] at hlen hshort
  omega

/-- A call that stores something appends it to the storage and takes it into the log. -/
theorem run_stores (h : ¬StoresNothing rn call) : ∃ rn', call.run rn = some rn' ∧ rn'.log ≠ [] ∧
      rn'.logStorage = (rn.logStorage.appendEntries .written (call.stores rn)).1 ∧
      (rn'.log = rn.log ++ call.stores rn ↔ StoresAtEnd rn call) := by
  cases call with
  | appendEntry entryType data now =>
    have hlead : rn.state = .leader := not_not.mp h
    refine ⟨_, rfl, ?_⟩
    rw [RaftNode.appendEntry_leader hlead]
    exact ⟨by simp, rfl, fun _ => trivial, fun _ => rfl⟩
  | handleAppendEntries req =>
    have hall := h
    unfold StoresNothing at hall
    push Not at hall
    obtain ⟨hne, hle, hprev, hpos⟩ := hall
    obtain ⟨log, hlog, hlogne, hend⟩ := mergedLog_cases rn.log hne hpos
    rcases rn.handleAppendEntries_cases req with ⟨hstale, -⟩ | ⟨-, -, hbad⟩ |
      ⟨-, -, log', r, hlog', hr, -, -, hrn⟩
    · omega
    · rcases hbad with ⟨hmis, -⟩ | ⟨hnone, -⟩
      · exact absurd hmis hprev
      · exact absurd (hlog.symm.trans hnone) (by simp)
    obtain rfl := some.inj (hlog.symm.trans hlog')
    refine ⟨_, map_eq_some_iff.mpr ⟨r, hr, rfl⟩, ?_⟩
    rw [hrn]
    refine ⟨hlogne, if_neg hne, ?_⟩
    exact hend.trans ⟨Or.inr, fun hor => hor.resolve_left h⟩
  | handleVoteRequest req => exact absurd trivial h
  | startElection => exact absurd trivial h
  | becomeLeader => exact absurd trivial h

end Calls

/-! ## Whole runs -/

theorem synced_run {rn rn' : RaftNode} {call : LogCall} (h : Synced rn)
    (hrun : call.run rn = some rn') : Synced rn' := by
  by_cases hnothing : StoresNothing rn call
  · rw [Synced, (run_storesNothing hnothing hrun).2]
    exact h
  obtain ⟨rn'', hrun', -, hstorage, -⟩ := run_stores hnothing
  obtain rfl := some.inj (hrun'.symm.trans hrun)
  rw [Synced, hstorage]
  rfl

theorem rebuilt_log : (rebuilt rn).log = [] := rfl

theorem rebuilt_entries {rn : RaftNode} (h : Synced rn) :
    (rebuilt rn).logStorage.entries = rn.logStorage.entries := h

/-- **The log across a restart.** At every point of every run the log of the rebuilt node equals
the running log exactly if no call stores an entry, and the reloaded `LogStorage` equals it
exactly if every call stores at the end of the log. -/
theorem durable_iff (id : String) (calls : List LogCall) :
    ((∀ rn ∈ Lts.trace LogCall.run (newRaftNode id .none) calls, (rebuilt rn).log = rn.log) ↔
      Lts.Along LogCall.run StoresNothing (newRaftNode id .none) calls) ∧
    ((∀ rn ∈ Lts.trace LogCall.run (newRaftNode id .none) calls,
        (rebuilt rn).logStorage.entries = rn.log) ↔
      Lts.Along LogCall.run StoresAtEnd (newRaftNode id .none) calls) := by
  have hsynced : ∀ rn call rn', Synced rn → LogCall.run rn call = some rn' → Synced rn' :=
    fun rn call rn' => synced_run
  constructor
  · refine Lts.forall_trace_iff_along hsynced ?_ ?_ calls _ rfl rfl
    · intro rn call rn' _ hgood hok hrun
      rw [rebuilt_log, (run_storesNothing hok hrun).1, ← hgood, rebuilt_log]
    intro rn call _ _ hbad
    obtain ⟨rn', hrun, hne, -⟩ := run_stores hbad
    exact ⟨rn', hrun, fun heq => hne heq.symm⟩
  refine Lts.forall_trace_iff_along hsynced ?_ ?_ calls _ rfl rfl
  · intro rn call rn' hs hgood hok hrun
    rw [rebuilt_entries (synced_run hs hrun)]
    rw [rebuilt_entries hs] at hgood
    by_cases hnothing : StoresNothing rn call
    · obtain ⟨hlog, hstorage⟩ := run_storesNothing hnothing hrun
      rw [hlog, hstorage, hgood]
    obtain ⟨rn'', hrun', -, hstorage, hend⟩ := run_stores hnothing
    obtain rfl := some.inj (hrun'.symm.trans hrun)
    rw [hend.mpr hok, hstorage, appendEntries_entries, hgood]
  intro rn call hs hgood hbad
  rw [rebuilt_entries hs] at hgood
  -- a call that stores in the middle stores something
  have hsome : ¬StoresNothing rn call := by
    intro hnothing
    cases call with
    | handleAppendEntries req => exact hbad (Or.inl hnothing)
    | _ => exact hbad trivial
  obtain ⟨rn', hrun, -, hstorage, hend⟩ := run_stores hsome
  refine ⟨rn', hrun, fun heq => hbad (hend.mp ?_)⟩
  rw [rebuilt_entries (synced_run hs hrun), hstorage, appendEntries_entries, hgood] at heq
  exact heq.symm

/-- An entry of term 1, the same request again, and a request of term 2 that replaces it. -/
def conflictCalls : List LogCall :=
  let x : LogEntry := ⟨1, 1, "put", [1], 10⟩
  let y : LogEntry := ⟨1, 2, "put", [2], 20⟩
  [.handleAppendEntries ⟨1, "n1", 0, 0, [x], 0⟩, .handleAppendEntries ⟨1, "n1", 0, 0, [x], 0⟩,
    .handleAppendEntries ⟨2, "n3", 0, 0, [y], 0⟩]

/-- **Neither copy survives.** The running node has one entry of term 2; the rebuilt one has an
empty log, and its storage holds the entry of term 1 twice before it. -/
theorem restart_loses_log_counterexample :
    let x : LogEntry := ⟨1, 1, "put", [1], 10⟩
    let y : LogEntry := ⟨1, 2, "put", [2], 20⟩
    ∃ rn ∈ Lts.trace LogCall.run (newRaftNode "n2" .none) conflictCalls,
      rn.log = [y] ∧ (rebuilt rn).log = [] ∧ (rebuilt rn).logStorage.entries = [x, x, y] := by
  refine ⟨_, mem_of_getLast? rfl, ?_, ?_, ?_⟩ <;> decide

end DistributedKV.Consensus
