import DistributedKV.Consensus.FollowerLog

/-!
# How far a follower commits (`raft.go`, `rpc.go`)

An accepted append request confirms the log up to `PrevLogIndex` plus the number of its entries:
everything behind that may be left from an older leader. The handler however bounds the new
commit index by the last index of its whole log. The request comes through the RPC server.
-/

namespace DistributedKV.Consensus

open Lib

/-! ## The RPC server -/

/-- How one of the `select`s of the RPC server ends. -/
inductive SelectOutcome where
  | ready
  | cancelled
  | timedOut

/-- The errors of `RaftRPCServer.AppendEntries`: the context's own, and the two
timeouts. -/
inductive RpcError where
  | cancelled
  | processingTimeout
  | responseTimeout

/-- `cluster.AppendResponse`. -/
structure ClusterAppendResponse where
  term : Int
  success : Bool
  lastLogIndex : Int

/-- `RaftRPCServer.AppendEntries`: queue the request for the event loop, then wait. A caller
that stops waiting does not stop the node. `none`: the handler panicked. -/
def RaftRPCServer.appendEntries (disk : Disk) (send receive : SelectOutcome) (rn : RaftNode)
    (req : AppendRequest) : Option (RaftNode × Except RpcError ClusterAppendResponse) :=
  match send with
  | .cancelled => some (rn, .error .cancelled)
  | .timedOut => some (rn, .error .processingTimeout)
  | .ready =>
    match rn.handleAppendEntries disk req with
    | (_, none) => none
    | (rn, some resp) =>
      match receive with
      | .cancelled => some (rn, .error .cancelled)
      | .timedOut => some (rn, .error .responseTimeout)
      | .ready => some (rn, .ok ⟨resp.term, resp.success, resp.lastLogIndex⟩)

variable {req : AppendRequest} {es log : List LogEntry} {i : Nat}

/-! ## The last index after a request -/

/-- The last index after the request: its own last entry if that is new, else the old last
index. -/
def lastIndexAfter (log : List LogEntry) (req : AppendRequest) : Int :=
  if req.entries = [] ∨ (req.prevLogIndex + req.entries.length ≤ log.length ∧
      ∀ i < req.entries.length, ¬Conflict log req i) then lastIndexOf log
  else lastIndexOf req.entries

theorem lastIndexOf_append (log : List LogEntry) (h : es ≠ []) :
    lastIndexOf (log ++ es) = lastIndexOf es := by
  rw [lastIndexOf, lastIndexOf, List.getLast?_append_of_ne_nil _ h]

theorem lastIndexOf_drop (h : i < es.length) : lastIndexOf (es.drop i) = lastIndexOf es := by
  rw [lastIndexOf, lastIndexOf, List.getLast?_drop, if_neg (by omega)]

theorem Conflict.lt_length (h : Conflict log req i) : i < req.entries.length := by
  obtain ⟨-, -, new, hnew, -⟩ := h
  exact (List.getElem?_eq_some_iff.mp hnew).1

/-- **The last index of the merged log**, from the old log and the request. -/
theorem lastIndexOf_mergedLog {log' : List LogEntry} (h : mergedLog log req = some log') :
    lastIndexOf log' = lastIndexAfter log req := by
  by_cases hnil : req.entries = []
  · obtain rfl : log = log' := by simpa [mergedLog, hnil] using h
    rw [lastIndexAfter, if_pos (Or.inl hnil)]
  have hpos : 0 ≤ req.prevLogIndex := by
    by_contra hneg
    rw [mergedLog_negative (by omega) hnil] at h
    simp at h
  obtain ⟨p, hp⟩ : ∃ p : Nat, req.prevLogIndex = p := ⟨req.prevLogIndex.toNat, by omega⟩
  by_cases hpast : log.length < p
  · -- the whole request is past the end
    rw [mergedLog_past (by omega)] at h
    rw [← Option.some.inj h, lastIndexOf_append log hnil, lastIndexAfter, if_neg]
    rintro (hnil' | ⟨hle, -⟩)
    · exact hnil hnil'
    · omega
  have hle : p ≤ log.length := by omega
  by_cases hconf : ∃ i, Conflict log req i
  · have hi := Nat.find_spec hconf
    rw [mergedLog_of_conflict hp hle hi (fun _ hj => Nat.find_min hconf hj) h,
      lastIndexOf_append _ (by simpa using hi.lt_length), lastIndexOf_drop hi.lt_length,
      lastIndexAfter, if_neg]
    rintro (hnil' | ⟨-, hnone⟩)
    · exact hnil hnil'
    · exact hnone _ hi.lt_length hi
  push Not at hconf
  rw [mergedLog_of_no_conflict hp hle hconf h]
  by_cases hcover : p + req.entries.length ≤ log.length
  · rw [List.drop_of_length_le (by omega), List.append_nil, lastIndexAfter,
      if_pos (Or.inr ⟨by omega, fun i _ => hconf i⟩)]
  rw [lastIndexOf_append _ (by simp; omega), lastIndexOf_drop (by omega), lastIndexAfter, if_neg]
  rintro (hnil' | ⟨hle', -⟩)
  · exact hnil hnil'
  · omega

/-! ## The commit bound -/

/-- The index of the last entry a request confirms. -/
def AppendRequest.confirmed (req : AppendRequest) : Int := req.prevLogIndex + req.entries.length

/-- **When a follower commits only what the request confirmed.** For an accepted request: a
raised commit index is within `LeaderCommit` and the confirmed part exactly if the smaller of
`LeaderCommit` and the follower's last index is confirmed or was committed before. -/
theorem commit_within_confirmed_iff (disk : Disk) (receive : SelectOutcome) (rn rn' : RaftNode)
    (req : AppendRequest) (result : Except RpcError ClusterAppendResponse)
    (hrpc : RaftRPCServer.appendEntries disk .ready receive rn req = some (rn', result))
    (haccepted : (rn.handleAppendEntries disk req).2.map AppendResponse.success = some true) :
    (rn.commitIndex < rn'.commitIndex → rn'.commitIndex ≤ min req.leaderCommit req.confirmed) ↔
      min req.leaderCommit (lastIndexAfter rn.log req) ≤ max rn.commitIndex req.confirmed := by
  obtain ⟨r, hr, hok⟩ := Option.map_eq_some_iff.mp haccepted
  obtain ⟨-, -, log, hlog, hout⟩ := RaftNode.accepted_cases hr hok
  -- whatever the caller gets to see, the node has handled the request
  have hnode : rn' = (rn.handleAppendEntries disk req).1 := by
    unfold RaftRPCServer.appendEntries at hrpc
    generalize rn.handleAppendEntries disk req = answered at hr hrpc
    obtain ⟨node, reply⟩ := answered
    obtain rfl : reply = some r := hr
    cases receive <;> exact (congrArg Prod.fst (Option.some.inj hrpc)).symm
  have hcommit : rn'.commitIndex =
      if req.leaderCommit > rn.commitIndex then min req.leaderCommit (lastIndexAfter rn.log req)
      else rn.commitIndex := by
    rw [hnode, hout, ← lastIndexOf_mergedLog hlog]
    rfl
  rw [hcommit]
  split_ifs with hraise <;> omega

/-- A request that ends where the log ends is within the bound. -/
theorem commit_within_confirmed_entry :
    let rn := newRaftNode "n1" .none
    let req : AppendRequest := ⟨1, "n2", 0, 0, [⟨1, 1, "put", [], 0⟩], 1⟩
    let rn' := (rn.handleAppendEntries .healthy req).1
    rn'.commitIndex = 1 ∧ rn'.commitIndex ≤ min req.leaderCommit req.confirmed := by
  intro rn req rn'
  refine ⟨rfl, ?_⟩
  have hrpc : RaftRPCServer.appendEntries .healthy .ready .ready rn req =
      some (rn', .ok ⟨1, true, 1⟩) := rfl
  exact (commit_within_confirmed_iff .healthy .ready rn rn' req _ hrpc rfl).mpr (by decide)
    (by decide)

/-- **A leftover tail is committed.** The follower holds two uncommitted entries of term 1. A
leader of term 2 sends a heartbeat that confirms nothing and has `LeaderCommit` 2: both are
committed. -/
theorem stale_tail_counterexample :
    let tail : List LogEntry := [⟨1, 1, "put", [], 0⟩, ⟨2, 1, "put", [], 0⟩]
    let rn := ((newRaftNode "n1" .none).handleAppendEntries .healthy ⟨1, "n2", 0, 0, tail, 0⟩).1
    let heartbeat : AppendRequest := ⟨2, "n3", 0, 0, [], 2⟩
    ∃ rn', RaftRPCServer.appendEntries .healthy .ready .ready rn heartbeat =
        some (rn', .ok ⟨2, true, 2⟩) ∧ rn.commitIndex = 0 ∧ heartbeat.confirmed = 0 ∧
      rn'.commitIndex = 2 ∧ rn'.log = tail := by
  refine ⟨_, rfl, ?_⟩
  decide

end DistributedKV.Consensus
