import DistributedKV.Lib.CanonicalLog
import DistributedKV.Consensus.Node

/-!
# What each handler can do

One specification per handler of `Node.lean`. Each says everything the call can do to the node,
guards included, so that the invariants of the cluster never unfold a handler.

The two index loops of `handleAppendEntries` (scan for a conflict, then append what is past the
end) together compute `Lib.merge` on the log behind `PrevLogIndex` (`mergedLog_eq`).
-/

namespace DistributedKV.Consensus

open Lib List Option

/-! ## Reading the log -/

/-- Entries are numbered contiguously from 1. -/
def Numbered (log : List LogEntry) : Prop :=
  ∀ (k : Nat) e, log[k]? = some e → e.index = (k : Int) + 1

theorem numbered_nil : Numbered [] := by
  intro k e h
  simp at h

variable {log : List LogEntry} {p i : Nat} {req : AppendRequest}

theorem Numbered.restrict {log' : List LogEntry} (h : Numbered log') (hp : log <+: log') :
    Numbered log :=
  fun k e hk => h k e (prefix_getElem? hp hk)

theorem Numbered.lastIndexOf_eq (h : Numbered log) : lastIndexOf log = log.length := by
  cases hlast : log.getLast? with
  | none =>
    rw [getLast?_eq_none_iff.mp hlast]
    rfl
  | some e =>
    have hk := hlast
    rw [getLast?_eq_getElem?] at hk
    have hlen := (List.getElem?_eq_some_iff.mp hk).1
    rw [lastIndexOf, hlast]
    show e.index = _
    rw [h _ e hk]
    omega

theorem Numbered.concat {e : LogEntry} (h : Numbered log) (he : e.index = log.length + 1) :
    Numbered (log ++ [e]) := by
  intro k e' hk
  by_cases hkl : k < log.length
  · rw [getElem?_append_left hkl] at hk
    exact h k e' hk
  have hlen := (List.getElem?_eq_some_iff.mp hk).1
  rw [length_append, length_singleton] at hlen
  obtain rfl : k = log.length := by omega
  obtain rfl : e = e' := by simpa using hk
  exact he

@[simp] theorem entryAt_succ (log : List LogEntry) (k : Nat) :
    entryAt log ((k : Int) + 1) = log[k]? := by
  rw [entryAt, if_pos (by omega)]
  congr 1
  omega

theorem entryAt_congr {l l' : List LogEntry} {n : Int} (h : l.take n.toNat = l'.take n.toNat) :
    entryAt l n = entryAt l' n := by
  by_cases hpos : 1 ≤ n
  · obtain ⟨m, rfl⟩ : ∃ m : Nat, n = (m : Int) + 1 := ⟨(n - 1).toNat, by omega⟩
    have hm : m < ((m : Int) + 1).toNat := by omega
    rw [entryAt_succ, entryAt_succ, ← getElem?_take_of_lt hm, h, getElem?_take_of_lt hm]
  · rw [entryAt, entryAt, if_neg hpos, if_neg hpos]

theorem lastTermOf_of_getLast? {e : LogEntry} (h : log.getLast? = some e) :
    lastTermOf log = e.term := by
  rw [lastTermOf, h]
  rfl

/-! ## Index maps -/

namespace IndexMap

open IndexMap

theorem get_insert (m : IndexMap) (p q : String) (v : Int) :
    get (m.insert p v) q = if q = p then v else m.get q := by
  unfold get
  split_ifs with h
  · rw [h, AList.lookup_insert]
    rfl
  · rw [AList.lookup_insert_ne h]

variable {p : String} {m : IndexMap} {e : (_ : String) × Int}

/-- After `becomeLeader` has set all peers, every one of them reads the new value. -/
theorem get_foldl_insert {ps : List String} (hp : p ∈ ps) (m : IndexMap) (v : Int) :
    get (ps.foldl (fun m q => m.insert q v) m) p = v := by
  have hkeep : ∀ (qs : List String) (m : IndexMap), m.get p = v →
      get (qs.foldl (fun m q => m.insert q v) m) p = v := by
    intro qs
    induction qs with
    | nil => exact fun m h => h
    | cons q qs ih =>
      intro m h
      refine ih _ ?_
      rw [get_insert]
      split_ifs
      · rfl
      · exact h
  induction ps generalizing m with
  | nil => exact absurd hp (by simp)
  | cons q ps ih =>
    rcases mem_cons.mp hp with rfl | hp
    · exact hkeep ps _ (by rw [get_insert, if_pos rfl])
    · exact ih hp _

theorem mem_entries_erase (he : e ∈ (m.erase p).entries) : e ∈ m.entries ∧ e.1 ≠ p := by
  refine ⟨(kerase_sublist p m.entries).subset he, ?_⟩
  rintro rfl
  exact notMem_keys_kerase _ m.nodupKeys (mem_map_of_mem he)

theorem mem_entries_insert {v : Int} (he : e ∈ (m.insert p v).entries) :
    e = ⟨p, v⟩ ∨ (e ∈ m.entries ∧ e.1 ≠ p) := by
  rcases mem_cons.mp he with rfl | he
  · exact Or.inl rfl
  · exact Or.inr (mem_entries_erase he)

theorem mem_entries_foldl_insert {ps : List String} {v : Int}
    (he : e ∈ (ps.foldl (fun m q => m.insert q v) m).entries) :
    (e.1 ∈ ps ∧ e.2 = v) ∨ (e ∈ m.entries ∧ e.1 ∉ ps) := by
  induction ps generalizing m with
  | nil => exact Or.inr ⟨he, by simp⟩
  | cons p ps ih =>
    rcases ih he with ⟨hmem, hv⟩ | ⟨hmem, hnot⟩
    · exact Or.inl ⟨mem_cons_of_mem _ hmem, hv⟩
    rcases mem_entries_insert hmem with rfl | ⟨hmem, hne⟩
    · exact Or.inl ⟨mem_cons_self .., rfl⟩
    · exact Or.inr ⟨hmem, by simp [hne, hnot]⟩

/-- A new leader takes nothing for stored. -/
theorem mem_matchIndex_becomeLeader {rn : RaftNode}
    (h : ∀ e ∈ rn.matchIndex.entries, e.1 ∈ rn.peers)
    (he : e ∈ rn.becomeLeader.matchIndex.entries) : e.1 ∈ rn.peers ∧ e.2 = 0 :=
  (mem_entries_foldl_insert he).resolve_right fun ⟨hmem, hnot⟩ => hnot (h e hmem)

end IndexMap

/-! ## The log effect of `handleAppendEntries` -/

/-- The log after the entries of a request are taken in. -/
def mergedLog (log : List LogEntry) (req : AppendRequest) : Option (List LogEntry) :=
  if req.entries = [] then some log
  else (truncateConflict req.prevLogIndex log 0 req.entries).map fun l =>
    appendNew req.prevLogIndex l 0 req.entries

theorem truncateConflict_past (es : List LogEntry) (h : log.length ≤ p + i) :
    truncateConflict p log i es = some log := by
  induction es generalizing i with
  | nil => rfl
  | cons e es ih =>
    rw [truncateConflict, if_neg (by omega)]
    exact ih (by omega)

theorem truncateConflict_length {l : List LogEntry} {es : List LogEntry} (hi : p + i ≤ log.length)
    (h : truncateConflict p log i es = some l) : p + i ≤ l.length := by
  induction es generalizing i with
  | nil =>
    cases h
    exact hi
  | cons e es ih =>
    rw [truncateConflict] at h
    by_cases hle : p + i + 1 ≤ log.length
    · have hcast : (p : Int) + i + 1 = ((p + i : Nat) : Int) + 1 := by omega
      rw [if_pos (by omega), hcast, entryAt_succ, getElem?_eq_getElem (by omega)] at h
      dsimp only at h
      split_ifs at h with hterm
      · cases h
        rw [length_take]
        omega
      · have := ih (by omega) h
        omega
    · rw [if_neg (by omega), truncateConflict_past es (by omega)] at h
      cases h
      exact hi

theorem appendNew_end (es : List LogEntry) (h : log.length ≤ p + i) :
    appendNew p log i es = log ++ es := by
  induction es generalizing log i with
  | nil => simp [appendNew]
  | cons e es ih =>
    rw [appendNew, if_pos (by omega), ih (by rw [length_append, length_singleton]; omega)]
    simp

open LogEntry

/-- Scan and append, from the `i`-th entry on, merge the rest of the request into the log's. -/
theorem appendNew_truncateConflict (es : List LogEntry) (hi : p + i ≤ log.length) :
    (truncateConflict p log i es).map (fun l => appendNew p l i es) =
      some (log.take (p + i) ++ merge term (log.drop (p + i)) es) := by
  induction es generalizing i with
  | nil => simp [truncateConflict, appendNew]
  | cons e es ih =>
    by_cases hle : p + i + 1 ≤ log.length
    · have hcast : (p : Int) + i + 1 = ((p + i : Nat) : Int) + 1 := by omega
      have hget : log[p + i]? = some log[p + i] := getElem?_eq_getElem (by omega)
      rw [truncateConflict, if_pos (by omega), hcast, entryAt_succ, hget]
      dsimp only
      rw [drop_eq_getElem_cons (by omega), merge_cons]
      by_cases hterm : (log[p + i]).term = e.term
      · -- the entry is already there: both loops skip it
        rw [if_neg (by simpa using hterm), if_pos hterm]
        have hskip : ∀ l ∈ truncateConflict p log (i + 1) es,
            appendNew p l i (e :: es) = appendNew p l (i + 1) es := by
          intro l hl
          have := truncateConflict_length (by omega) hl
          rw [appendNew, if_neg (by omega)]
        rw [map_congr hskip, ih (by omega), ← Nat.add_assoc,
          take_succ_of_getElem? hget, append_assoc]
        rfl
      · -- a conflict: the log is cut here and the rest appended
        rw [if_pos (by simpa using hterm), if_neg hterm, map_some,
          show ((p + i : Nat) : Int) + 1 - 1 = ((p + i : Nat) : Int) by omega, Int.toNat_natCast,
          appendNew_end _ (by rw [length_take]; omega)]
    · -- the log ends here: everything left is new
      rw [truncateConflict_past _ (by omega), map_some, appendNew_end _ (by omega),
        take_of_length_le (by omega), drop_of_length_le (by omega), merge_nil_left]

/-- **The log effect of `handleAppendEntries`**, for a request that starts inside the log: keep
everything up to `PrevLogIndex` and merge the entries behind it. -/
theorem mergedLog_eq (hp : req.prevLogIndex = p) (hle : p ≤ log.length) :
    mergedLog log req = some (log.take p ++ merge term (log.drop p) req.entries) := by
  rw [mergedLog]
  split_ifs with hnil
  · rw [hnil]
    simp
  · rw [hp]
    exact appendNew_truncateConflict req.entries (i := 0) (by omega)

/-- Behind the end of the log nothing can conflict. -/
theorem mergedLog_past (h : (log.length : Int) ≤ req.prevLogIndex) :
    mergedLog log req = some (log ++ req.entries) := by
  obtain ⟨p, hp⟩ : ∃ p : Nat, req.prevLogIndex = p := ⟨req.prevLogIndex.toNat, by omega⟩
  have hle : log.length ≤ p + 0 := by omega
  rw [mergedLog, hp]
  split_ifs with hnil
  · rw [hnil, append_nil]
  · rw [truncateConflict_past _ hle, map_some, appendNew_end _ hle]

/-- A negative index panics. -/
theorem mergedLog_negative (hprev : req.prevLogIndex < 0) (hne : req.entries ≠ []) :
    mergedLog log req = none := by
  obtain ⟨e, es, hes⟩ := exists_cons_of_ne_nil hne
  rw [mergedLog, if_neg hne, hes, truncateConflict, if_pos (by simp; omega), entryAt,
    if_neg (by simp; omega)]
  rfl

/-- A request that carries the rest of a log `L` from a common prefix on merges
the whole of `L`. -/
theorem mergedLog_of_common {L : List LogEntry} (hp : req.prevLogIndex = p)
    (hentries : req.entries = L.drop p) (hlog : p ≤ log.length) (hL : p ≤ L.length)
    (hcommon : log.take p = L.take p) : mergedLog log req = some (merge term log L) := by
  rw [mergedLog_eq hp hlog, hentries, merge_eq_take_append hcommon hlog hL]

/-! ## Elections -/

/-- The persistence of a node whose last save of term and vote succeeded. -/
def savedState (term : Int) (votedFor : String) : PersistentState :=
  { data := ⟨term, votedFor⟩, file := ⟨term, votedFor⟩ }

namespace RaftNode

variable (disk : Disk)

variable (rn : RaftNode)

theorem stepDown_eq (term : Int) :
    rn.stepDown true term = { rn with
      currentTerm := term
      state := .follower
      votedFor := ""
      persistence := savedState term "" } := rfl

/-- The node with its vote given to `candidate`. -/
def voteFor (ok : Bool) (candidate : String) : RaftNode :=
  { rn with votedFor := candidate }.savePersistentState ok

/-- **`handleVoteRequest`**, whatever the disk answers. A vote needs to be free or already the
candidate's (a newer term frees it first), and a log at least as new as the node's. -/
inductive VoteOutcome (disk : Disk) (rn : RaftNode) (req : VoteRequest) :
    RaftNode × VoteResponse → Prop where
  | stale : req.term < rn.currentTerm →
    VoteOutcome disk rn req (rn, ⟨rn.currentTerm, false, rn.id⟩)
  | refused : req.term = rn.currentTerm →
    ¬((rn.votedFor = "" ∨ rn.votedFor = req.candidateID) ∧
      rn.isLogUpToDate req.lastLogIndex req.lastLogTerm = true) →
    VoteOutcome disk rn req (rn, ⟨rn.currentTerm, false, rn.id⟩)
  | granted : req.term = rn.currentTerm →
    (rn.votedFor = "" ∨ rn.votedFor = req.candidateID) →
    rn.isLogUpToDate req.lastLogIndex req.lastLogTerm = true →
    VoteOutcome disk rn req
      (rn.voteFor (disk.save 1) req.candidateID, ⟨rn.currentTerm, true, rn.id⟩)
  | newerRefused : rn.currentTerm < req.term →
    rn.isLogUpToDate req.lastLogIndex req.lastLogTerm = false →
    VoteOutcome disk rn req
      (rn.stepDown (disk.save 0) req.term, ⟨rn.currentTerm, false, rn.id⟩)
  | newerGranted : rn.currentTerm < req.term →
    rn.isLogUpToDate req.lastLogIndex req.lastLogTerm = true →
    VoteOutcome disk rn req
      ((rn.stepDown (disk.save 0) req.term).voteFor (disk.save 1) req.candidateID,
        ⟨req.term, true, rn.id⟩)

theorem handleVoteRequest_outcome (rn : RaftNode) (req : VoteRequest) :
    VoteOutcome disk rn req (rn.handleVoteRequest disk req) := by
  unfold handleVoteRequest
  dsimp only
  by_cases hstale : req.term < rn.currentTerm
  · rw [if_pos hstale]
    exact .stale hstale
  by_cases hnew : req.term > rn.currentTerm
  · -- the vote was just cleared, so only the log decides
    split_ifs with hgrant
    · exact .newerGranted hnew hgrant.2
    refine .newerRefused hnew ?_
    by_contra hup
    exact hgrant ⟨Or.inl rfl, (Bool.not_eq_false _).mp hup⟩
  · have heq : req.term = rn.currentTerm := by omega
    split_ifs with hgrant
    · exact .granted heq hgrant.1 hgrant.2
    · exact .refused heq hgrant

/-- On a healthy disk: refuse and change nothing; refuse but adopt a newer term; or grant, when
the vote of the term is free or already the candidate's. -/
theorem handleVoteRequest_cases (req : VoteRequest) :
    ((rn.handleVoteRequest .healthy req).1 = rn ∧
      (rn.handleVoteRequest .healthy req).2.voteGranted = false) ∨
    (rn.currentTerm < req.term ∧
      (rn.handleVoteRequest .healthy req).1 = rn.stepDown true req.term ∧
      (rn.handleVoteRequest .healthy req).2.voteGranted = false) ∨
    ((rn.handleVoteRequest .healthy req).2.voteGranted = true ∧ rn.currentTerm ≤ req.term ∧
      rn.isLogUpToDate req.lastLogIndex req.lastLogTerm = true ∧
      (req.term = rn.currentTerm → rn.votedFor = "" ∨ rn.votedFor = req.candidateID) ∧
      (rn.handleVoteRequest .healthy req).1 = { rn with
        currentTerm := req.term
        state := if rn.currentTerm < req.term then .follower else rn.state
        votedFor := req.candidateID
        persistence := savedState req.term req.candidateID }) := by
  have h := rn.handleVoteRequest_outcome .healthy req
  generalize rn.handleVoteRequest .healthy req = out at h ⊢
  cases h with
  | stale hstale => exact Or.inl ⟨rfl, rfl⟩
  | refused heq hno => exact Or.inl ⟨rfl, rfl⟩
  | newerRefused hnew hup => exact Or.inr (Or.inl ⟨hnew, rfl, rfl⟩)
  | granted heq hfree hup =>
    refine Or.inr (Or.inr ⟨rfl, by omega, hup, fun _ => hfree, ?_⟩)
    rw [if_neg (by omega), heq]
    rfl
  | newerGranted hnew hup =>
    refine Or.inr (Or.inr ⟨rfl, by omega, hup, fun heq => by omega, ?_⟩)
    rw [if_pos hnew]
    rfl

/-- **One turn of the collecting loop**: the round is over because the node moved on; it goes on
with the vote counted; or the node has a majority and becomes leader. -/
theorem collectVote_cases (round : VoteRound) (peer : String) (granted : Bool) :
    let out := rn.collectVote .healthy round ⟨round.request.term, granted, peer⟩
    let votes := if granted then round.votes + 1 else round.votes
    (out = (rn, none) ∧ (rn.state ≠ .candidate ∨ rn.currentTerm ≠ round.request.term)) ∨
    (rn.state = .candidate ∧ rn.currentTerm = round.request.term ∧ votes < round.majority ∧
      out = (rn, some { round with votes := votes, waiting := round.waiting.erase peer })) ∨
    (rn.state = .candidate ∧ rn.currentTerm = round.request.term ∧ round.majority ≤ votes ∧
      out = (rn.becomeLeader, none)) := by
  intro out votes
  by_cases hmoved : rn.state ≠ .candidate ∨ rn.currentTerm ≠ round.request.term
  · refine Or.inl ⟨?_, hmoved⟩
    show rn.collectVote .healthy round _ = _
    rw [collectVote, if_pos hmoved]
  have hmoved' := hmoved
  push Not at hmoved'
  obtain ⟨hcand, hterm⟩ := hmoved'
  have hout : out = if votes ≥ round.majority then (rn.becomeLeader, none)
      else (rn, some { round with votes := votes, waiting := round.waiting.erase peer }) := by
    show rn.collectVote .healthy round _ = _
    rw [collectVote, if_neg hmoved, if_neg (by simp [hterm])]
  split_ifs at hout with hmaj
  · exact Or.inr (Or.inr ⟨hcand, hterm, hmaj, hout⟩)
  · exact Or.inr (Or.inl ⟨hcand, hterm, by omega, hout⟩)

/-! ## `handleAppendEntries` -/

/-- The node after it has accepted a request that makes its log `log`. -/
def accept (rn : RaftNode) (req : AppendRequest) (log : List LogEntry) : RaftNode :=
  { rn.stepDown (disk.save 0) req.term with
    log := log
    logStorage := if req.entries = [] then rn.logStorage
      else (rn.logStorage.appendEntries disk.persist req.entries).1
    commitIndex :=
      if req.leaderCommit > rn.commitIndex then min req.leaderCommit (lastIndexOf log)
      else rn.commitIndex }

theorem followCommit_eq (leaderCommit : Int) :
    rn.followCommit leaderCommit = { rn with
      commitIndex := if leaderCommit > rn.commitIndex then min leaderCommit (lastIndexOf rn.log)
        else rn.commitIndex } := by
  unfold followCommit
  split_ifs <;> rfl

theorem storeEntries_eq (rn : RaftNode) (req : AppendRequest) :
    rn.storeEntries disk req = (mergedLog rn.log req).map fun log => { rn with
      log := log
      logStorage := if req.entries = [] then rn.logStorage
        else (rn.logStorage.appendEntries disk.persist req.entries).1 } := by
  rw [storeEntries, mergedLog]
  split_ifs with hnil
  · rfl
  · cases truncateConflict req.prevLogIndex rn.log 0 req.entries <;> rfl

/-- **`handleAppendEntries`**, whatever the disk answers: a request of an old term changes
nothing; any other makes the node a follower of its term with no vote, and then fails the
consistency check, panics, or is accepted. -/
theorem handleAppendEntries_eq (rn : RaftNode) (req : AppendRequest) :
    rn.handleAppendEntries disk req =
      if req.term < rn.currentTerm then
        (rn, some ⟨rn.currentTerm, false, lastIndexOf rn.log, rn.id⟩)
      else if rn.prevMismatch req = true then
        (rn.stepDown (disk.save 0) req.term, some ⟨req.term, false, lastIndexOf rn.log, rn.id⟩)
      else
        (mergedLog rn.log req).elim (rn.stepDown (disk.save 0) req.term, none) fun log =>
          (rn.accept disk req log, some ⟨req.term, true, lastIndexOf log, rn.id⟩) := by
  have hmis : (rn.stepDown (disk.save 0) req.term).prevMismatch req = rn.prevMismatch req := rfl
  have hlog : (rn.stepDown (disk.save 0) req.term).log = rn.log := rfl
  rw [handleAppendEntries]
  split_ifs with hstale hprev
  · rfl
  · rw [if_pos (hmis.trans hprev)]
    rfl
  rw [if_neg (by rw [hmis]; exact hprev), storeEntries_eq, hlog]
  cases mergedLog rn.log req with
  | none => rfl
  | some log =>
    show (followCommit _ req.leaderCommit, _) = _
    rw [followCommit_eq]
    rfl

theorem handleAppendEntries_cases (req : AppendRequest) :
    let out := rn.handleAppendEntries .healthy req
    (req.term < rn.currentTerm ∧ out.1 = rn ∧ ∃ r, out.2 = some r ∧ r.success = false) ∨
    (rn.currentTerm ≤ req.term ∧ out.1 = rn.stepDown true req.term ∧
      ((rn.prevMismatch req = true ∧ ∃ r, out.2 = some r ∧ r.success = false) ∨
        (mergedLog rn.log req = none ∧ out.2 = none))) ∨
    (rn.currentTerm ≤ req.term ∧ rn.prevMismatch req = false ∧
      ∃ log r, mergedLog rn.log req = some log ∧
        out.2 = some r ∧ r.success = true ∧ r.term = req.term ∧
        out.1 = { rn.stepDown true req.term with
          log := log
          logStorage := if req.entries = [] then rn.logStorage
            else (rn.logStorage.appendEntries .written req.entries).1
          commitIndex :=
            if req.leaderCommit > rn.commitIndex then min req.leaderCommit (lastIndexOf log)
            else rn.commitIndex }) := by
  intro out
  have hout : out = rn.handleAppendEntries .healthy req := rfl
  rw [handleAppendEntries_eq] at hout
  split_ifs at hout with hstale hprev
  · rw [hout]
    exact Or.inl ⟨hstale, rfl, _, rfl, rfl⟩
  · rw [hout]
    exact Or.inr (Or.inl ⟨by omega, rfl, Or.inl ⟨hprev, _, rfl, rfl⟩⟩)
  cases hlog : mergedLog rn.log req with
  | none =>
    rw [hout, hlog]
    exact Or.inr (Or.inl ⟨by omega, rfl, Or.inr ⟨rfl, rfl⟩⟩)
  | some log =>
    rw [hout, hlog]
    exact Or.inr (Or.inr ⟨by omega, by simpa using hprev, log, _, rfl, rfl, rfl, rfl, rfl⟩)

variable {rn rn' : RaftNode}

/-- A request that passes the check starts at 0 or right behind an entry of the term it names.
-/
theorem prevMismatch_eq_false {req : AppendRequest} {p : Nat} (hnum : Numbered rn.log)
    (hp : req.prevLogIndex = p) (h : rn.prevMismatch req = false) :
    p = 0 ∨ ∃ k e, p = k + 1 ∧ rn.log[k]? = some e ∧ e.term = req.prevLogTerm := by
  cases p with
  | zero => exact Or.inl rfl
  | succ k =>
    refine Or.inr ⟨k, ?_⟩
    have hlast : rn.getLastLogIndex = rn.log.length := hnum.lastIndexOf_eq
    have hcast : req.prevLogIndex = (k : Int) + 1 := by omega
    rw [prevMismatch, hcast, hlast, if_pos (by omega)] at h
    by_cases hlen : (k : Int) + 1 > rn.log.length
    · rw [if_pos hlen] at h
      exact absurd h (by decide)
    · rw [if_neg hlen, if_pos (by omega), entryAt_succ, getElem?_eq_getElem (by omega)] at h
      exact ⟨_, rfl, getElem?_eq_getElem (by omega), by simpa using h⟩

/-! ## Leader side -/

/-- The entry `AppendEntry` creates. -/
def newEntry (rn : RaftNode) (entryType : String) (data : List UInt8) (now : Int) : LogEntry :=
  { index := rn.getLastLogIndex + 1
    term := rn.currentTerm
    type := entryType
    data := data
    timestamp := now }

theorem appendEntry_not_leader (h : rn.state ≠ .leader) (disk : Disk) (entryType : String)
    (data : List UInt8) (now : Int) : (rn.appendEntry disk entryType data now).1 = rn := by
  rw [appendEntry, if_pos h]

/-- A leader appends the entry to its log and to the file. -/
theorem appendEntry_leader (h : rn.state = .leader) (disk : Disk) (entryType : String)
    (data : List UInt8) (now : Int) :
    (rn.appendEntry disk entryType data now).1 = { rn with
      log := rn.log ++ [rn.newEntry entryType data now]
      logStorage :=
        (rn.logStorage.appendEntries disk.persist [rn.newEntry entryType data now]).1 } := by
  rw [appendEntry, if_neg (by simp [h])]
  dsimp only
  split <;> rfl

/-- **The request of `replicateToFollower`** for a next index up to the end of the log: the rest
of the log from there, and the term before it. -/
theorem buildAppendRequest_eq (rn : RaftNode) {p : Nat} (hp : p ≤ rn.log.length) :
    rn.buildAppendRequest ((p : Int) + 1) = some {
      term := rn.currentTerm
      leaderID := rn.id
      prevLogIndex := p
      prevLogTerm := ((entryAt rn.log p).map term).getD 0
      entries := rn.log.drop p
      leaderCommit := rn.commitIndex } := by
  have hpred : (p : Int) + 1 - 1 = p := by omega
  have hterm : (if (p : Int) > 0 ∧ (p : Int) ≤ rn.log.length then
      ((entryAt rn.log p).map term).getD 0 else 0) =
        ((entryAt rn.log p).map term).getD 0 := by
    split_ifs with h
    · rfl
    · rw [entryAt, if_neg (by omega)]
      rfl
  have hentries : (if (p : Int) + 1 ≤ rn.log.length then rn.log.drop ((p : Int)).toNat else []) =
      rn.log.drop p := by
    split_ifs with h
    · rfl
    · rw [drop_of_length_le (by omega)]
  rw [buildAppendRequest, if_neg (by omega), hpred, hterm, hentries]

/-- The peers whose match index reaches `n`. -/
def replicas (rn : RaftNode) (n : Int) : List String :=
  (rn.matchIndex.entries.filter fun e => decide (n ≤ e.2)).map Sigma.fst

theorem mem_replicas {n : Int} {p : String} (h : p ∈ rn.replicas n) :
    ∃ e ∈ rn.matchIndex.entries, e.1 = p ∧ n ≤ e.2 := by
  obtain ⟨e, he, rfl⟩ := mem_map.mp h
  obtain ⟨he, hle⟩ := mem_filter.mp he
  exact ⟨e, he, rfl, of_decide_eq_true hle⟩

theorem replicas_nodup (rn : RaftNode) (n : Int) : (rn.replicas n).Nodup :=
  List.NodupKeys.sublist filter_sublist rn.matchIndex.nodupKeys

theorem replicaCount_eq (rn : RaftNode) (n : Int) :
    rn.replicaCount n = (rn.replicas n).length + 1 := by
  rw [replicaCount, replicas, countP_eq_length_filter, length_map, Nat.add_comm]

/-- The commit loop finds nothing or an index of the current term above the bound that a
majority holds. -/
theorem commitLoop_cases {fuel : Nat} {n : Int} (h : rn.commitLoop fuel n = some rn') :
    rn' = rn ∨ ∃ m e, n - fuel < m ∧ m ≤ n ∧ entryAt rn.log m = some e ∧
      e.term = rn.currentTerm ∧ rn.getMajority ≤ rn.replicaCount m ∧
      rn' = { rn with commitIndex := m } := by
  induction fuel generalizing n with
  | zero => exact Or.inl (some.inj h).symm
  | succ fuel ih =>
    -- a turn that does not commit goes on with `n - 1`
    have hnext : rn.commitLoop fuel (n - 1) = some rn' →
        rn' = rn ∨ ∃ m e, n - (fuel + 1 : Nat) < m ∧ m ≤ n ∧ entryAt rn.log m = some e ∧
          e.term = rn.currentTerm ∧ rn.getMajority ≤ rn.replicaCount m ∧
          rn' = { rn with commitIndex := m } := by
      intro h'
      rcases ih h' with heq | ⟨m, e, h1, h2, hrest⟩
      · exact Or.inl heq
      · exact Or.inr ⟨m, e, by omega, by omega, hrest⟩
    rw [commitLoop] at h
    split_ifs at h with hle
    · cases he : entryAt rn.log n with
      | none => simp [he] at h
      | some e =>
        rw [he] at h
        dsimp only at h
        split_ifs at h with hc
        · exact Or.inr ⟨n, e, by omega, le_refl n, he, hc.1, hc.2, (some.inj h).symm⟩
        · exact hnext h
    · exact hnext h

/-- A commit index moves to an entry of the own term that a majority has. -/
theorem updateCommitIndex_cases (hlead : rn.state = .leader) (h : rn.updateCommitIndex = some rn') :
    rn' = rn ∨ ∃ m e, rn.commitIndex < m ∧ entryAt rn.log m = some e ∧
      e.term = rn.currentTerm ∧ rn.getMajority ≤ rn.replicaCount m ∧
      rn' = { rn with commitIndex := m } := by
  rw [updateCommitIndex, if_neg (by simp [hlead])] at h
  rcases commitLoop_cases h with heq | ⟨m, e, hlow, hhigh, he, het, hmaj, heq⟩
  · exact Or.inl heq
  · exact Or.inr ⟨m, e, by omega, he, het, hmaj, heq⟩

/-- The commit loop reads no entry before the first one if it stops above 0. -/
theorem commitLoop_isSome (rn : RaftNode) {fuel : Nat} {n : Int} (h : 0 ≤ n - fuel) :
    ∃ rn', rn.commitLoop fuel n = some rn' := by
  induction fuel generalizing n with
  | zero => exact ⟨rn, rfl⟩
  | succ fuel ih =>
    have hnext : ∃ rn', rn.commitLoop fuel (n - 1) = some rn' := ih (by omega)
    rw [commitLoop]
    by_cases hle : n ≤ rn.log.length
    · obtain ⟨k, rfl⟩ : ∃ k : Nat, n = (k : Int) + 1 := ⟨(n - 1).toNat, by omega⟩
      rw [if_pos hle, entryAt_succ, getElem?_eq_getElem (by omega)]
      dsimp only
      split_ifs
      · exact ⟨_, rfl⟩
      · exact hnext
    · rw [if_neg hle]
      exact hnext

theorem updateCommitIndex_isSome (h : 0 ≤ rn.commitIndex) :
    ∃ rn', rn.updateCommitIndex = some rn' := by
  rw [updateCommitIndex]
  split_ifs with hlead
  · exact ⟨rn, rfl⟩
  by_cases hlast : rn.getLastLogIndex ≤ rn.commitIndex
  · rw [Int.toNat_of_nonpos (by omega)]
    exact ⟨rn, rfl⟩
  · exact rn.commitLoop_isSome (by omega)

/-- The node after a success of `peer` up to index `matched`. -/
def noteMatch (rn : RaftNode) (peer : String) (matched : Int) : RaftNode :=
  { rn with
    matchIndex := rn.matchIndex.insert peer matched
    nextIndex := rn.nextIndex.insert peer (matched + 1) }

/-- The node after a failure of `peer`. -/
def stepBack (rn : RaftNode) (peer : String) : RaftNode :=
  { rn with nextIndex := rn.nextIndex.insert peer (rn.nextIndex.get peer - 1) }

theorem noteMatch_matchIndex (rn : RaftNode) (peer : String) (matched : Int) (p : String) :
    (rn.noteMatch peer matched).matchIndex.get p =
      if p = peer then matched else rn.matchIndex.get p :=
  IndexMap.get_insert ..

theorem noteMatch_nextIndex (rn : RaftNode) (peer : String) (matched : Int) (p : String) :
    (rn.noteMatch peer matched).nextIndex.get p =
      if p = peer then matched + 1 else rn.nextIndex.get p :=
  IndexMap.get_insert ..

theorem stepBack_nextIndex (rn : RaftNode) (peer p : String) : (rn.stepBack peer).nextIndex.get p =
      if p = peer then rn.nextIndex.get peer - 1 else rn.nextIndex.get p :=
  IndexMap.get_insert ..

section Response

variable {disk : Disk} {rn rn' : RaftNode} {peer : String} {req : AppendRequest}
  {resp : AppendResponse}

theorem handleAppendEntriesResponse_ignored (h : rn.state ≠ .leader ∨ resp.term ≠ rn.currentTerm) :
    rn.handleAppendEntriesResponse disk peer req resp = some rn := by
  rw [handleAppendEntriesResponse, if_pos h]

/-- A reply for the leader of its term: the step-down is out of reach, so the disk
does not matter. -/
theorem handleAppendEntriesResponse_taken (hlead : rn.state = .leader)
    (hterm : resp.term = rn.currentTerm) : rn.handleAppendEntriesResponse disk peer req resp =
      if resp.success then
        if req.entries = [] then some rn
        else (rn.noteMatch peer (req.prevLogIndex + req.entries.length)).updateCommitIndex
      else if rn.nextIndex.get peer > 1 then some (rn.stepBack peer) else some rn := by
  rw [handleAppendEntriesResponse, if_neg (by simp [hlead, hterm]), if_neg (by omega)]
  by_cases hnil : req.entries = []
  · rw [if_pos hnil, if_neg (show ¬req.entries.length > 0 by simp [hnil])]
    rfl
  · rw [if_neg hnil, if_pos (length_pos_iff.mpr hnil)]
    rfl

/-- **`handleAppendEntriesResponse`**: ignore the reply; note a success and perhaps commit an
entry of the current term that a majority holds; or step `nextIndex` back by one. -/
theorem handleAppendEntriesResponse_cases
    (h : rn.handleAppendEntriesResponse disk peer req resp = some rn') : rn' = rn ∨
    (rn.state = .leader ∧ resp.term = rn.currentTerm ∧ resp.success = true ∧ req.entries ≠ [] ∧
      ∃ matched, matched = { rn with
          matchIndex := rn.matchIndex.insert peer (req.prevLogIndex + req.entries.length)
          nextIndex := rn.nextIndex.insert peer (req.prevLogIndex + req.entries.length + 1) } ∧
        (rn' = matched ∨ ∃ m e, rn.commitIndex < m ∧ entryAt rn.log m = some e ∧
          e.term = rn.currentTerm ∧ rn.getMajority ≤ matched.replicaCount m ∧
          rn' = { matched with commitIndex := m })) ∨
    (rn.state = .leader ∧ resp.term = rn.currentTerm ∧ resp.success = false ∧
      1 < rn.nextIndex.get peer ∧ rn' = rn.stepBack peer) := by
  by_cases hignore : rn.state ≠ .leader ∨ resp.term ≠ rn.currentTerm
  · rw [handleAppendEntriesResponse_ignored hignore] at h
    exact Or.inl (some.inj h).symm
  push Not at hignore
  obtain ⟨hlead, hterm⟩ := hignore
  rw [handleAppendEntriesResponse_taken hlead hterm] at h
  split_ifs at h with hsucc hnil hback
  · exact Or.inl (some.inj h).symm
  · exact Or.inr (Or.inl ⟨hlead, hterm, hsucc, hnil, _, rfl, updateCommitIndex_cases hlead h⟩)
  · exact Or.inr (Or.inr ⟨hlead, hterm, by simpa using hsucc, hback, (some.inj h).symm⟩)
  · exact Or.inl (some.inj h).symm

end Response

/-! ## Membership and restart -/

theorem addPeer_eq (rn : RaftNode) (id : String) :
    rn.addPeer id = { rn with
      peers := if id ∈ rn.peers then rn.peers else rn.peers ++ [id]
      nextIndex := if rn.state = .leader then rn.nextIndex.insert id (rn.getLastLogIndex + 1)
        else rn.nextIndex
      matchIndex := if rn.state = .leader then rn.matchIndex.insert id 0 else rn.matchIndex } := by
  unfold addPeer
  dsimp only
  split_ifs <;> rfl

@[simp] theorem id_addPeer (rn : RaftNode) (p : String) : (rn.addPeer p).id = rn.id := by
  rw [addPeer_eq]

@[simp] theorem mem_peers_addPeer {p q : String} :
    q ∈ (rn.addPeer p).peers ↔ q ∈ rn.peers ∨ q = p := by
  rw [addPeer_eq]
  dsimp only
  split
  · next hmem =>
    constructor
    · exact Or.inl
    rintro (h | rfl)
    · exact h
    · exact hmem
  · simp

theorem nodup_peers_addPeer (h : rn.peers.Nodup) (p : String) : (rn.addPeer p).peers.Nodup := by
  rw [addPeer_eq]
  dsimp only
  split
  · exact h
  next hnew =>
    rw [← concat_eq_append]
    exact h.concat hnew

/-- A leader starts with match index 0 for the peer; no other node has one. -/
theorem mem_matchIndex_addPeer {p : String} {e : (_ : String) × Int}
    (he : e ∈ (rn.addPeer p).matchIndex.entries) : e ∈ rn.matchIndex.entries ∨ e = ⟨p, 0⟩ := by
  rw [addPeer_eq] at he
  by_cases hlead : rn.state = .leader
  · rw [if_pos hlead, if_pos hlead] at he
    exact (IndexMap.mem_entries_insert he).elim Or.inr (fun hold => Or.inl hold.1)
  · rw [if_neg hlead, if_neg hlead] at he
    exact Or.inl he

theorem foldl_addPeer {ids : List String} (hstate : rn.state ≠ .leader)
    (hnodup : (rn.peers ++ ids).Nodup) :
    ids.foldl addPeer rn = { rn with peers := rn.peers ++ ids } := by
  induction ids generalizing rn with
  | nil => simp
  | cons id ids ih =>
    have hid : id ∉ rn.peers := by
      intro hmem
      exact (nodup_append.mp hnodup).2.2 id hmem id (mem_cons_self ..) rfl
    have hadd : rn.addPeer id = { rn with peers := rn.peers ++ [id] } := by
      rw [addPeer, if_neg hid, if_neg hstate]
    rw [foldl_cons, hadd, @ih { rn with peers := rn.peers ++ [id] } hstate (by simpa using hnodup)]
    simp

/-- **Restart**: term and vote come back from the file, everything else of the
running node is lost. -/
theorem restart_eq (hnodup : rn.peers.Nodup) :
    rn.restart = { newRaftNode rn.id rn.files with peers := rn.peers } := by
  rw [restart, foldl_addPeer (by simp [newRaftNode]) (by simpa [newRaftNode] using hnodup)]
  simp [newRaftNode]

/-! ## What every handler keeps

No handler changes the name of a node or its peers, and each leaves term and
vote on disk. -/

/-- Term and vote are on disk. -/
def Saved (rn : RaftNode) : Prop := rn.persistence.file = ⟨rn.currentTerm, rn.votedFor⟩

/-- Same name, same peers, and term and vote stay on disk. -/
structure SameConfig (rn rn' : RaftNode) : Prop where
  id : rn'.id = rn.id
  peers : rn'.peers = rn.peers
  saved : rn.Saved → rn'.Saved

theorem SameConfig.refl (rn : RaftNode) : SameConfig rn rn := ⟨rfl, rfl, fun h => h⟩

theorem sameConfig_handleVoteRequest (rn : RaftNode) (req : VoteRequest) :
    SameConfig rn (rn.handleVoteRequest .healthy req).1 := by
  rcases rn.handleVoteRequest_cases req with ⟨hrn, -⟩ | ⟨-, hrn, -⟩ | ⟨-, -, -, -, hrn⟩ <;> rw [hrn]
  · exact SameConfig.refl rn
  · exact ⟨rfl, rfl, fun _ => rfl⟩
  · exact ⟨rfl, rfl, fun _ => rfl⟩

theorem sameConfig_handleAppendEntries (rn : RaftNode) (req : AppendRequest) :
    SameConfig rn (rn.handleAppendEntries .healthy req).1 := by
  rcases rn.handleAppendEntries_cases req with ⟨-, hrn, -⟩ | ⟨-, hrn, -⟩ |
    ⟨-, -, log, r, -, -, -, -, hrn⟩
  · rw [hrn]
    exact SameConfig.refl rn
  · rw [hrn]
    exact ⟨rfl, rfl, fun _ => rfl⟩
  · rw [hrn]
    exact ⟨rfl, rfl, fun _ => rfl⟩

theorem sameConfig_handleAppendEntriesResponse {peer : String} {req : AppendRequest}
    {resp : AppendResponse} (h : rn.handleAppendEntriesResponse .healthy peer req resp = some rn') :
    SameConfig rn rn' := by
  rcases handleAppendEntriesResponse_cases h with rfl |
    ⟨-, -, -, -, matched, rfl, rfl | ⟨m, e, -, -, -, -, rfl⟩⟩ | ⟨-, -, -, -, rfl⟩ <;>
  exact ⟨rfl, rfl, fun h => h⟩

theorem sameConfig_restart (hnodup : rn.peers.Nodup) : SameConfig rn rn.restart := by
  rw [restart_eq hnodup]
  exact ⟨rfl, rfl, fun _ => rfl⟩

/-- What was saved is there after a restart. -/
theorem restart_saved (hnodup : rn.peers.Nodup) (hsaved : rn.Saved) :
    rn.restart.state = .follower ∧ rn.restart.currentTerm = rn.currentTerm ∧
      rn.restart.votedFor = rn.votedFor ∧ rn.restart.log = [] := by
  rw [restart_eq hnodup]
  refine ⟨rfl, ?_, ?_, rfl⟩
  · show rn.persistence.file.currentTerm = _
    rw [hsaved]
  · show rn.persistence.file.votedFor = _
    rw [hsaved]

end RaftNode

end DistributedKV.Consensus
