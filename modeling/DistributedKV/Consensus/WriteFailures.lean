import DistributedKV.Consensus.NodeSpec

/-!
# What is left when a disk write fails

A failed save of term and vote is only logged. `AppendEntry` changes the log before it is written:
a leader whose write fails reports an error, but the entry is replicated and committed.
-/

namespace DistributedKV.Consensus

variable (disk : Disk)

/-! ## What a restart reads back -/

namespace RaftNode

theorem foldl_addPeer_of_follower {rn : RaftNode} (h : rn.state ≠ .leader) (ids : List String) :
    ∃ peers, ids.foldl addPeer rn = { rn with peers := peers } := by
  induction ids generalizing rn with
  | nil => exact ⟨rn.peers, rfl⟩
  | cons id ids ih =>
    rw [List.foldl_cons, addPeer_eq, if_neg h, if_neg h]
    exact ih h

theorem restart_persistent (rn : RaftNode) :
    rn.restart.currentTerm = rn.persistence.file.currentTerm ∧
      rn.restart.votedFor = rn.persistence.file.votedFor := by
  obtain ⟨peers, hpeers⟩ := @foldl_addPeer_of_follower (newRaftNode rn.id rn.files)
    (by simp [newRaftNode]) rn.peers
  rw [restart, hpeers]
  exact ⟨rfl, rfl⟩

end RaftNode

/-! ## Replies and the state file -/

/-- The requests a node answers. -/
inductive RaftRequest where
  | vote (req : VoteRequest)
  | append (req : AppendRequest)

/-- What a reply promises: a term, and the candidate of a granted vote. -/
structure Promise where
  term : Int
  vote : Option String

/-- The node after the request, and the promise of its reply; a panic replies
nothing. -/
def RaftRequest.handle (rn : RaftNode) : RaftRequest → RaftNode × Option Promise
  | .vote req =>
    let out := rn.handleVoteRequest disk req
    (out.1, some ⟨out.2.term, if out.2.voteGranted then some req.candidateID else none⟩)
  | .append req =>
    let out := rn.handleAppendEntries disk req
    (out.1, out.2.map fun r => ⟨r.term, none⟩)

/-- A restart brings back what the reply promised, and a term no lower than the node's. -/
structure KeptAcrossRestart (disk : Disk) (rn : RaftNode) (request : RaftRequest) : Prop where
  term : ∀ p ∈ (request.handle disk rn).2, p.term ≤ (request.handle disk rn).1.restart.currentTerm
  vote : ∀ p ∈ (request.handle disk rn).2, ∀ candidate ∈ p.vote,
    (request.handle disk rn).1.restart.votedFor = candidate
  current : (request.handle disk rn).1.currentTerm ≤
    (request.handle disk rn).1.restart.currentTerm

/-- The file, read by a restart, keeps a term. -/
def TermOnDisk (rn : RaftNode) (term : Int) : Prop := term ≤ rn.persistence.file.currentTerm

/-- The request is newer than the node, and the save of the new term succeeds. -/
def SavesTerm (rn : RaftNode) (term : Int) : Prop :=
  rn.currentTerm < term ∧ disk.save 0 = true

/-- The node grants the vote it is asked for. -/
def GrantsVote (rn : RaftNode) (req : VoteRequest) : Prop :=
  (rn.currentTerm < req.term ∨
    rn.currentTerm = req.term ∧ (rn.votedFor = "" ∨ rn.votedFor = req.candidateID)) ∧
  rn.isLogUpToDate req.lastLogIndex req.lastLogTerm = true

instance (rn : RaftNode) (req : VoteRequest) : Decidable (GrantsVote rn req) :=
  inferInstanceAs (Decidable ((_ ∨ _ ∧ (_ ∨ _)) ∧ _))

/-- The writes that a promise needs, where the file does not hold it already. -/
def Persisted (rn : RaftNode) : RaftRequest → Prop
  | .vote req =>
    if req.term < rn.currentTerm then TermOnDisk rn rn.currentTerm
    else if GrantsVote rn req then
      disk.save 1 = true ∨
      -- a failed save of the vote leaves the file of the step-down, or the old one
      (SavesTerm disk rn req.term ∧ req.candidateID = "") ∨
      (¬SavesTerm disk rn req.term ∧ TermOnDisk rn req.term ∧
        rn.persistence.file.votedFor = req.candidateID)
    else SavesTerm disk rn req.term ∨ TermOnDisk rn req.term
  | .append req =>
    if req.term < rn.currentTerm then TermOnDisk rn rn.currentTerm
    else disk.save 0 = true ∨ TermOnDisk rn req.term

/-- The state file of the node keeps a promise, and the node's own term. -/
def FileKeeps (rn : RaftNode) (p : Promise) : Prop :=
  p.term ≤ rn.persistence.file.currentTerm ∧
    (∀ candidate ∈ p.vote, rn.persistence.file.votedFor = candidate) ∧
    rn.currentTerm ≤ rn.persistence.file.currentTerm

variable {disk : Disk} (rn : RaftNode) {request : RaftRequest} (ok : Bool)

/-- What a restart brings back is what the file keeps. -/
theorem keptAcrossRestart_iff {rn rn' : RaftNode} {p : Promise}
    (h : request.handle disk rn = (rn', some p)) :
    KeptAcrossRestart disk rn request ↔ FileKeeps rn' p := by
  obtain ⟨hterm, hvote⟩ := rn'.restart_persistent
  constructor <;> rintro ⟨h1, h2, h3⟩
  · rw [h] at h1 h2 h3
    rw [hterm] at h1 h3
    rw [hvote] at h2
    exact ⟨h1 p rfl, h2 p rfl, h3⟩
  refine ⟨?_, ?_, ?_⟩
  · rw [h, hterm]
    rintro _ ⟨rfl⟩
    exact h1
  · rw [h, hvote]
    rintro _ ⟨rfl⟩
    exact h2
  · rw [h, hterm]
    exact h3

theorem keptAcrossRestart_none_iff {rn rn' : RaftNode} (h : request.handle disk rn = (rn', none)) :
    KeptAcrossRestart disk rn request ↔ TermOnDisk rn' rn'.currentTerm := by
  obtain ⟨hterm, -⟩ := rn'.restart_persistent
  constructor
  · rintro ⟨-, -, h3⟩
    rw [h, hterm] at h3
    exact h3
  intro h3
  refine ⟨?_, ?_, ?_⟩
  · rw [h]
    rintro _ ⟨⟩
  · rw [h]
    rintro _ ⟨⟩
  · rw [h, hterm]
    exact h3

/-- A vote is kept if its own save succeeds, or if the file had it before. -/
theorem fileKeeps_voteFor (candidate : String) :
    FileKeeps (rn.voteFor ok candidate) ⟨rn.currentTerm, some candidate⟩ ↔
      ok = true ∨ (TermOnDisk rn rn.currentTerm ∧ rn.persistence.file.votedFor = candidate) := by
  cases ok with
  | true =>
    refine iff_of_true ⟨le_refl _, ?_, le_refl _⟩ (Or.inl rfl)
    rintro _ ⟨rfl⟩
    rfl
  | false =>
    constructor
    · rintro ⟨hterm, hvote, -⟩
      exact Or.inr ⟨hterm, hvote candidate rfl⟩
    rintro (hok | ⟨hterm, hvote⟩)
    · exact absurd hok Bool.false_ne_true
    refine ⟨hterm, ?_, hterm⟩
    rintro _ ⟨rfl⟩
    exact hvote

/-- A term is kept if its save succeeds, or if the file had reached it before. -/
theorem fileKeeps_stepDown {term promised : Int} (hle : promised ≤ term) :
    FileKeeps (rn.stepDown ok term) ⟨promised, none⟩ ↔ ok = true ∨ TermOnDisk rn term := by
  cases ok with
  | true =>
    refine iff_of_true ⟨hle, ?_, le_refl _⟩ (Or.inl rfl)
    rintro _ ⟨⟩
  | false =>
    constructor
    · rintro ⟨-, -, hterm⟩
      exact Or.inr hterm
    rintro (hok | hterm)
    · exact absurd hok Bool.false_ne_true
    · refine ⟨hle.trans hterm, ?_, hterm⟩
      rintro _ ⟨⟩

theorem fileKeeps_unmoved : FileKeeps rn ⟨rn.currentTerm, none⟩ ↔ TermOnDisk rn rn.currentTerm := by
  constructor
  · rintro ⟨hterm, -, -⟩
    exact hterm
  intro hterm
  refine ⟨hterm, ?_, hterm⟩
  rintro _ ⟨⟩

theorem kept_vote_iff (disk : Disk) (rn : RaftNode) (req : VoteRequest) :
    KeptAcrossRestart disk rn (.vote req) ↔ Persisted disk rn (.vote req) := by
  have h := rn.handleVoteRequest_outcome disk req
  rw [keptAcrossRestart_iff rfl, Persisted]
  generalize rn.handleVoteRequest disk req = out at h ⊢
  cases h with
  | stale hstale =>
    rw [if_pos hstale]
    exact fileKeeps_unmoved rn
  | refused heq hno =>
    have hgrants : ¬GrantsVote rn req := fun hg =>
      hno ⟨hg.1.elim (fun h => by omega) And.right, hg.2⟩
    have hsaves : ¬SavesTerm disk rn req.term := fun hs => absurd hs.1 (by omega)
    rw [if_neg (show ¬req.term < rn.currentTerm by omega), if_neg hgrants, or_iff_right hsaves, heq]
    exact fileKeeps_unmoved rn
  | granted heq hfree hup =>
    have hgrants : GrantsVote rn req := ⟨Or.inr ⟨heq.symm, hfree⟩, hup⟩
    have hsaves : ¬SavesTerm disk rn req.term := fun hs => absurd hs.1 (by omega)
    rw [if_neg (show ¬req.term < rn.currentTerm by omega), if_pos hgrants]
    refine (fileKeeps_voteFor rn (disk.save 1) req.candidateID).trans (or_congr_right ?_)
    rw [or_iff_right (fun hs => hsaves hs.1), and_iff_right hsaves, heq]
  | newerRefused hnew hup =>
    have hgrants : ¬GrantsVote rn req := fun hg => Bool.false_ne_true (hup.symm.trans hg.2)
    rw [if_neg (show ¬req.term < rn.currentTerm by omega), if_neg hgrants, SavesTerm,
      and_iff_right hnew]
    exact fileKeeps_stepDown rn (disk.save 0) hnew.le
  | newerGranted hnew hup =>
    have hgrants : GrantsVote rn req := ⟨Or.inl hnew, hup⟩
    rw [if_neg (show ¬req.term < rn.currentTerm by omega), if_pos hgrants, SavesTerm,
      and_iff_right hnew]
    refine (fileKeeps_voteFor (rn.stepDown (disk.save 0) req.term) _ _).trans ?_
    refine or_congr_right ?_
    -- what the failed save leaves is the file of the step-down
    cases hsave : disk.save 0 with
    | true =>
      rw [and_iff_right rfl, or_iff_left (fun h => h.1 rfl)]
      exact ⟨fun h => h.2.symm, fun h => ⟨le_refl _, h.symm⟩⟩
    | false =>
      rw [or_iff_right (fun h => Bool.false_ne_true h.1), and_iff_right Bool.false_ne_true]
      exact Iff.rfl

theorem kept_append_iff (disk : Disk) (rn : RaftNode) (req : AppendRequest) :
    KeptAcrossRestart disk rn (.append req) ↔ Persisted disk rn (.append req) := by
  have hhandle : (RaftRequest.append req).handle disk rn = ((rn.handleAppendEntries disk req).1,
        (rn.handleAppendEntries disk req).2.map fun r => ⟨r.term, none⟩) := rfl
  rw [RaftNode.handleAppendEntries_eq] at hhandle
  rw [Persisted]
  split_ifs at hhandle ⊢ with hstale hprev
  · rw [keptAcrossRestart_iff hhandle]
    exact fileKeeps_unmoved rn
  · rw [keptAcrossRestart_iff hhandle]
    exact fileKeeps_stepDown rn _ (le_refl _)
  cases hlog : mergedLog rn.log req with
  | none =>
    rw [hlog] at hhandle
    rw [keptAcrossRestart_none_iff hhandle]
    refine Iff.trans ?_ (fileKeeps_stepDown rn (disk.save 0) (le_refl req.term))
    exact (fileKeeps_unmoved (rn.stepDown (disk.save 0) req.term)).symm
  | some log =>
    -- taking in the entries does not touch the state file
    rw [hlog] at hhandle
    rw [keptAcrossRestart_iff hhandle]
    exact fileKeeps_stepDown rn _ (le_refl _)

/-- **Persist before reply.** A restart right after the reply brings back the promised term and
vote, and a term no lower than the node's, exactly if the writes happened that the promise
needs. -/
theorem kept_across_restart_iff (disk : Disk) (rn : RaftNode) (request : RaftRequest) :
    KeptAcrossRestart disk rn request ↔ Persisted disk rn request := by
  cases request with
  | vote req => exact kept_vote_iff disk rn req
  | append req => exact kept_append_iff disk rn req

/-- **A vote that a restart forgets.** No save succeeds; the node grants the vote of term 5 all
the same, and comes back in term 0 with its vote free. -/
theorem unsaved_vote_counterexample :
    let full : Disk := { save := fun _ => false, persist := .written }
    let out := (newRaftNode "n1" .none).handleVoteRequest full ⟨5, "n2", 0, 0⟩
    out.2 = ⟨5, true, "n1"⟩ ∧ out.1.currentTerm = 5 ∧
      out.1.restart.currentTerm = 0 ∧ out.1.restart.votedFor = "" := by
  decide

/-! ## Appending an entry -/

/-- Log, stored entries and stored last index are what they were. -/
structure LogUntouched (rn rn' : RaftNode) : Prop where
  log : rn'.log = rn.log
  entries : rn'.logStorage.entries = rn.logStorage.entries
  lastIndex : rn'.logStorage.lastIndex = rn.logStorage.lastIndex

namespace RaftNode

theorem appendEntry_result {rn : RaftNode} (h : rn.state = .leader) (disk : Disk)
    (entryType : String) (data : List UInt8) (now : Int) :
    (rn.appendEntry disk entryType data now).2 =
      match disk.persist with
      | .written => .ok (rn.getLastLogIndex + 1)
      | .metadataFailed _ => .error (.persistFailed .metadata)
      | .entriesFailed => .error (.persistFailed .entries) := by
  rw [appendEntry, if_neg (by simp [h])]
  cases disk.persist <;> rfl

/-- **A failed write changes the same memory**: the entry is in the log and in `LogStorage`. -/
theorem appendEntry_memory {rn : RaftNode} (h : rn.state = .leader) (disk : Disk)
    (entryType : String) (data : List UInt8) (now : Int) :
    let rn' := (rn.appendEntry disk entryType data now).1
    rn'.log = rn.log ++ [rn.newEntry entryType data now] ∧
      rn'.logStorage.entries = rn.logStorage.entries ++ [rn.newEntry entryType data now] ∧
      rn'.logStorage.lastIndex = rn.getLastLogIndex + 1 := by
  intro rn'
  have hrn' : rn' = _ := appendEntry_leader h disk entryType data now
  rw [hrn']
  refine ⟨rfl, appendEntries_entries _ _ _, ?_⟩
  cases disk.persist <;> rfl

/-- **When `AppendEntry` is all or nothing.** An error of a leader means that log and storage
are as before exactly if the write succeeds and there is no error. -/
theorem appendEntry_all_or_nothing_iff (disk : Disk) (rn : RaftNode) (entryType : String)
    (data : List UInt8) (now : Int) (hlead : rn.state = .leader) :
    (∀ e, (rn.appendEntry disk entryType data now).2 = .error e →
        LogUntouched rn (rn.appendEntry disk entryType data now).1) ↔ disk.persist = .written := by
  rw [appendEntry_result hlead]
  obtain ⟨hlog, -, -⟩ := appendEntry_memory hlead disk entryType data now
  -- the entry is in the log, whatever the result
  have htouched : ¬LogUntouched rn (rn.appendEntry disk entryType data now).1 := by
    intro hsame
    have := hlog.symm.trans hsame.log
    simp at this
  cases hpersist : disk.persist with
  | written =>
    refine iff_of_true ?_ rfl
    rintro e ⟨⟩
  | metadataFailed | entriesFailed =>
    refine iff_of_false (fun hall => htouched (hall _ rfl)) ?_
    rintro ⟨⟩

theorem appendEntry_written :
    let rn : RaftNode := { newRaftNode "n1" .none with state := .leader, currentTerm := 1 }
    rn.state = .leader ∧ ∀ e, (rn.appendEntry .healthy "put" [] 0).2 = .error e →
        LogUntouched rn (rn.appendEntry .healthy "put" [] 0).1 := by
  intro rn
  exact ⟨rfl, (appendEntry_all_or_nothing_iff .healthy rn "put" [] 0 rfl).mpr rfl⟩

/-- **A failed write is replicated and committed.** The leader of three reports the error, sends
the entry to a follower all the same, and the follower's answer commits it. -/
theorem failed_append_counterexample :
    let leader := (((newRaftNode "n1" .none).addPeer "n2").addPeer "n3"
      |>.startElection .healthy).becomeLeader
    let entry : LogEntry := ⟨1, 1, "put", [], 0⟩
    let out := leader.appendEntry ⟨fun _ => true, .metadataFailed none⟩ "put" [] 0
    let request : AppendRequest := ⟨1, "n1", 0, 0, [entry], 0⟩
    out.2 = .error (.persistFailed .metadata) ∧
      out.1.log = [entry] ∧ out.1.logStorage.entries = [entry] ∧ out.1.logStorage.lastIndex = 1 ∧
      out.1.replicateToFollower "n2" = some request ∧
      (out.1.handleAppendEntriesResponse .healthy "n2" request ⟨1, true, 1, "n2"⟩).map
        RaftNode.commitIndex = some 1 := by
  decide +kernel

end RaftNode

end DistributedKV.Consensus
