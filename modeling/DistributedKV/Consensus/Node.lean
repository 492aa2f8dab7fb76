import DistributedKV.Consensus.Persistence

/-!
# A single Raft node (`raft.go`)

The record `RaftNode` and every handler that changes it, each as a pure function of the node, the
message and what the disk answers (`Disk`). Timers, loggers, channels and the state machine are
left out: no handler modeled here reads them.

`entryAt` is the expression `rn.log[i-1]`, with `none` for the index panic; a handler that may hit
one returns an `Option`.
-/

namespace DistributedKV.Consensus

/-- `RaftState`. -/
inductive RaftState where
  | follower
  | candidate
  | leader
deriving DecidableEq, Repr

/-- A Go map from node ids to indexes. -/
abbrev IndexMap := AList fun _ : String => Int

/-- Reading a Go map: a missing key yields the zero value. -/
def IndexMap.get (m : IndexMap) (id : String) : Int := (m.lookup id).getD 0

/-- `RaftNode`. Of the peers only the ids are kept. -/
structure RaftNode where
  id : String
  state : RaftState
  currentTerm : Int
  votedFor : String
  log : List LogEntry
  commitIndex : Int
  lastApplied : Int
  nextIndex : IndexMap
  matchIndex : IndexMap
  peers : List String
  persistence : PersistentState
  logStorage : LogStorage

/-- `VoteRequest`. -/
structure VoteRequest where
  term : Int
  candidateID : String
  lastLogIndex : Int
  lastLogTerm : Int
deriving DecidableEq, Repr

/-- `VoteResponse`. -/
structure VoteResponse where
  term : Int
  voteGranted : Bool
  nodeID : String
deriving DecidableEq, Repr

/-- `AppendRequest`. -/
structure AppendRequest where
  term : Int
  leaderID : String
  prevLogIndex : Int
  prevLogTerm : Int
  entries : List LogEntry
  leaderCommit : Int
deriving DecidableEq, Repr

/-- `AppendResponse`. -/
structure AppendResponse where
  term : Int
  success : Bool
  lastLogIndex : Int
  nodeID : String
deriving DecidableEq, Repr

/-! ## Reading the log -/

/-- The Go expression `log[i-1]`; `none` is the index panic. -/
def entryAt (log : List LogEntry) (i : Int) : Option LogEntry :=
  if 1 ≤ i then log[(i - 1).toNat]? else none

/-- The `Index` of the last entry, 0 for an empty log. -/
def lastIndexOf (log : List LogEntry) : Int := (log.getLast?.map LogEntry.index).getD 0

/-- The `Term` of the last entry, 0 for an empty log. -/
def lastTermOf (log : List LogEntry) : Int := (log.getLast?.map LogEntry.term).getD 0

namespace RaftNode

/-- `getLastLogIndex`. -/
def getLastLogIndex (rn : RaftNode) : Int := lastIndexOf rn.log

/-- `getLastLogTerm`. -/
def getLastLogTerm (rn : RaftNode) : Int := lastTermOf rn.log

/-- `getMajority`. -/
def getMajority (rn : RaftNode) : Nat := (rn.peers.length + 2) / 2

/-! ## Creation, restart and membership -/

end RaftNode

/-- The files of a node, as a restart finds them. -/
structure NodeFiles where
  stateFile : Option PersistentStateData
  metadataFile : Option LogMetadata
  logFile : Option (List LogEntry)

/-- The empty directory of a node that never ran. -/
def NodeFiles.none : NodeFiles := ⟨Option.none, Option.none, Option.none⟩

/-- `NewRaftNode`: term and vote come from `state.json`, and `LogStorage` reloads its entries,
but `rn.log` starts empty. -/
def newRaftNode (id : String) (files : NodeFiles) : RaftNode :=
  let persistence := newPersistentState files.stateFile
  { id := id
    state := .follower
    currentTerm := persistence.data.currentTerm
    votedFor := persistence.data.votedFor
    log := []
    commitIndex := 0
    lastApplied := 0
    nextIndex := ∅
    matchIndex := ∅
    peers := []
    persistence := persistence
    logStorage := loadLog files.metadataFile files.logFile }

namespace RaftNode

variable (rn : RaftNode)

/-- The files a node leaves behind. -/
def files : NodeFiles :=
  ⟨some rn.persistence.file, rn.logStorage.metadataFile, rn.logStorage.logFile⟩

/-- `AddPeer`. -/
def addPeer (id : String) : RaftNode :=
  let rn := { rn with peers := if id ∈ rn.peers then rn.peers else rn.peers ++ [id] }
  if rn.state = .leader then
    { rn with
      nextIndex := rn.nextIndex.insert id (rn.getLastLogIndex + 1)
      matchIndex := rn.matchIndex.insert id 0 }
  else rn

/-- `RemovePeer`. -/
def removePeer (id : String) : RaftNode :=
  { rn with
    peers := rn.peers.filter (· ≠ id)
    nextIndex := rn.nextIndex.erase id
    matchIndex := rn.matchIndex.erase id }

/-- A restart: `NewRaftNode` on the files left behind, then the manager adds the peers again. -/
def restart : RaftNode :=
  rn.peers.foldl addPeer (newRaftNode rn.id rn.files)

/-- `savePersistentState`; a failed save is only logged. -/
def savePersistentState (ok : Bool) : RaftNode :=
  { rn with persistence := rn.persistence.save ok ⟨rn.currentTerm, rn.votedFor⟩ }

/-- The step-down block shared by the handlers: adopt `term`, become follower,
forget the vote, save. -/
def stepDown (ok : Bool) (term : Int) : RaftNode :=
  { rn with currentTerm := term, state := .follower, votedFor := "" }.savePersistentState ok

/-! ## Elections -/

/-- `startElection`. -/
def startElection (disk : Disk) (rn : RaftNode) : RaftNode :=
  { rn with
    currentTerm := rn.currentTerm + 1
    state := .candidate
    votedFor := rn.id }.savePersistentState (disk.save 0)

/-- `handleElectionTimeout`: a leader ignores the timer. -/
def handleElectionTimeout (disk : Disk) (rn : RaftNode) : RaftNode :=
  if rn.state = .leader then rn else rn.startElection disk

/-- `becomeLeader`. -/
def becomeLeader : RaftNode :=
  { rn with
    state := .leader
    nextIndex := rn.peers.foldl (fun m p => m.insert p (rn.getLastLogIndex + 1)) rn.nextIndex
    matchIndex := rn.peers.foldl (fun m p => m.insert p 0) rn.matchIndex }

/-- `isLogUpToDate`. -/
def isLogUpToDate (lastLogIndex lastLogTerm : Int) : Bool :=
  if lastLogTerm ≠ rn.getLastLogTerm then decide (lastLogTerm ≥ rn.getLastLogTerm)
  else decide (lastLogIndex ≥ rn.getLastLogIndex)

/-- `handleVoteRequest`. The reply has the term from before, refreshed only if the vote is
granted. -/
def handleVoteRequest (disk : Disk) (rn : RaftNode) (req : VoteRequest) :
    RaftNode × VoteResponse :=
  let response : VoteResponse :=
    { term := rn.currentTerm, voteGranted := false, nodeID := rn.id }
  if req.term < rn.currentTerm then (rn, response)
  else
    let rn := if req.term > rn.currentTerm then rn.stepDown (disk.save 0) req.term else rn
    if (rn.votedFor = "" ∨ rn.votedFor = req.candidateID) ∧
        rn.isLogUpToDate req.lastLogIndex req.lastLogTerm = true then
      let rn := { rn with votedFor := req.candidateID }.savePersistentState (disk.save 1)
      (rn, { response with voteGranted := true, term := rn.currentTerm })
    else (rn, response)

end RaftNode

/-- The locals of one `requestVotes` goroutine: the state it read under the lock, the peers
whose answer has not been taken yet, and the votes so far. -/
structure VoteRound where
  request : VoteRequest
  waiting : List String
  votes : Nat
  majority : Nat
deriving DecidableEq, Repr

namespace RaftNode

/-- The first half of `requestVotes`: read term and log end, ask every peer. -/
def requestVotes (rn : RaftNode) : VoteRound :=
  { request :=
      { term := rn.currentTerm
        candidateID := rn.id
        lastLogIndex := rn.getLastLogIndex
        lastLogTerm := rn.getLastLogTerm }
    waiting := rn.peers
    votes := 1
    majority := rn.getMajority }

/-- One turn of the collecting loop of `requestVotes`, with the round that goes on, `none` once
the goroutine has returned. -/
def collectVote (disk : Disk) (rn : RaftNode) (round : VoteRound) (response : VoteResponse) :
    RaftNode × Option VoteRound :=
  if rn.state ≠ .candidate ∨ rn.currentTerm ≠ round.request.term then (rn, none)
  else if response.term > rn.currentTerm then (rn.stepDown (disk.save 0) response.term, none)
  else
    let votes := if response.voteGranted then round.votes + 1 else round.votes
    if votes ≥ round.majority then (rn.becomeLeader, none)
    else (rn, some { round with votes := votes, waiting := round.waiting.erase response.nodeID })

end RaftNode

/-! ## Log replication, follower side -/

/-- The first loop of `handleAppendEntries`, from the `i`-th request entry on: cut the log at
the first entry whose term differs. -/
def truncateConflict (prev : Int) (log : List LogEntry) :
    Nat → List LogEntry → Option (List LogEntry)
  | _, [] => some log
  | i, entry :: rest =>
    let entryIndex := prev + i + 1
    if entryIndex ≤ log.length then
      match entryAt log entryIndex with
      | none => none
      | some existing =>
        if existing.term ≠ entry.term then some (log.take (entryIndex - 1).toNat)
        else truncateConflict prev log (i + 1) rest
    else truncateConflict prev log (i + 1) rest

/-- The second loop of `handleAppendEntries`: append the entries past the end of
the log. -/
def appendNew (prev : Int) : List LogEntry → Nat → List LogEntry → List LogEntry
  | log, _, [] => log
  | log, i, entry :: rest =>
    if prev + i + 1 > log.length then appendNew prev (log ++ [entry]) (i + 1) rest
    else appendNew prev log (i + 1) rest

namespace RaftNode

/-- The consistency check: is the entry before the new ones missing or of another term? -/
def prevMismatch (rn : RaftNode) (req : AppendRequest) : Bool :=
  if req.prevLogIndex > 0 then
    if req.prevLogIndex > rn.getLastLogIndex then true
    else if req.prevLogIndex ≤ rn.log.length then
      match entryAt rn.log req.prevLogIndex with
      | none => false
      | some prevEntry => decide (prevEntry.term ≠ req.prevLogTerm)
    else false
  else false

/-- `handleAppendEntries` takes in the entries: truncate, append, and hand the whole request to
`LogStorage.AppendEntries` (a failure is only logged). -/
def storeEntries (disk : Disk) (rn : RaftNode) (req : AppendRequest) : Option RaftNode :=
  if req.entries = [] then some rn
  else
    match truncateConflict req.prevLogIndex rn.log 0 req.entries with
    | none => none
    | some log =>
      some { rn with
        log := appendNew req.prevLogIndex log 0 req.entries
        logStorage := (rn.logStorage.appendEntries disk.persist req.entries).1 }

/-- The commit block of `handleAppendEntries`. -/
def followCommit (rn : RaftNode) (leaderCommit : Int) : RaftNode :=
  if leaderCommit > rn.commitIndex then
    { rn with commitIndex := min leaderCommit rn.getLastLogIndex }
  else rn

/-- `handleAppendEntries`. A reply of `none` is an index panic: only what was saved is left. -/
def handleAppendEntries (disk : Disk) (rn : RaftNode) (req : AppendRequest) :
    RaftNode × Option AppendResponse :=
  let response : AppendResponse :=
    { term := rn.currentTerm
      success := false
      lastLogIndex := rn.getLastLogIndex
      nodeID := rn.id }
  if req.term < rn.currentTerm then (rn, some response)
  else
    let rn := rn.stepDown (disk.save 0) req.term
    let response := { response with term := rn.currentTerm }
    if rn.prevMismatch req = true then (rn, some response)
    else
      match rn.storeEntries disk req with
      | none => (rn, none)
      | some rn =>
        let rn := rn.followCommit req.leaderCommit
        (rn, some { response with success := true, lastLogIndex := rn.getLastLogIndex })

end RaftNode

/-! ## Log replication, leader side -/

/-- The errors `AppendEntry` returns. -/
inductive AppendError where
  | notLeader
  | persistFailed (error : PersistError)
deriving DecidableEq, Repr

namespace RaftNode

variable (rn : RaftNode)

/-- `AppendEntry`. The entry is in the log before it is persisted, and stays if that fails. -/
def appendEntry (disk : Disk) (rn : RaftNode) (entryType : String) (data : List UInt8)
    (now : Int) : RaftNode × Except AppendError Int :=
  if rn.state ≠ .leader then (rn, .error .notLeader)
  else
    let entry : LogEntry :=
      { index := rn.getLastLogIndex + 1
        term := rn.currentTerm
        type := entryType
        data := data
        timestamp := now }
    let (storage, err) := rn.logStorage.appendEntries disk.persist [entry]
    let rn := { rn with log := rn.log ++ [entry], logStorage := storage }
    match err with
    | some e => (rn, .error (.persistFailed e))
    | none => (rn, .ok entry.index)

/-- The request of `replicateToFollower` for a next index; `none` is a slice panic. -/
def buildAppendRequest (nextIndex : Int) : Option AppendRequest :=
  let prevLogIndex := nextIndex - 1
  let prevLogTerm :=
    if prevLogIndex > 0 ∧ prevLogIndex ≤ rn.log.length then
      ((entryAt rn.log prevLogIndex).map LogEntry.term).getD 0
    else 0
  if nextIndex ≤ rn.log.length ∧ nextIndex < 1 then none
  else
    some {
      term := rn.currentTerm
      leaderID := rn.id
      prevLogIndex := prevLogIndex
      prevLogTerm := prevLogTerm
      entries := if nextIndex ≤ rn.log.length then rn.log.drop (nextIndex - 1).toNat else []
      leaderCommit := rn.commitIndex }

/-- The next index `replicateToFollower` starts from: 0 is read as 1. -/
def startIndex (peerID : String) : Int :=
  if rn.nextIndex.get peerID = 0 then 1 else rn.nextIndex.get peerID

/-- `replicateToFollower` up to the request it sends. -/
def replicateToFollower (peerID : String) : Option AppendRequest :=
  if rn.state ≠ .leader then none else rn.buildAppendRequest (rn.startIndex peerID)

/-- How many servers, the node itself included, hold index `n`. -/
def replicaCount (n : Int) : Nat :=
  1 + rn.matchIndex.entries.countP fun e => decide (n ≤ e.2)

/-- The loop of `updateCommitIndex`, downwards from `n`; `none` is an index panic. -/
def commitLoop (rn : RaftNode) : Nat → Int → Option RaftNode
  | 0, _ => some rn
  | fuel + 1, n =>
    if n ≤ rn.log.length then
      match entryAt rn.log n with
      | none => none
      | some entry =>
        if entry.term = rn.currentTerm ∧ rn.replicaCount n ≥ rn.getMajority then
          some { rn with commitIndex := n }
        else commitLoop rn fuel (n - 1)
    else commitLoop rn fuel (n - 1)

/-- `updateCommitIndex`: from the last index down to above `commitIndex`. -/
def updateCommitIndex : Option RaftNode :=
  if rn.state ≠ .leader then some rn
  else rn.commitLoop (rn.getLastLogIndex - rn.commitIndex).toNat rn.getLastLogIndex

/-- `handleAppendEntriesResponse`. The first check rejects a reply of any other term, so the
step-down after it is never reached. -/
def handleAppendEntriesResponse (disk : Disk) (rn : RaftNode) (peerID : String)
    (req : AppendRequest) (resp : AppendResponse) : Option RaftNode :=
  if rn.state ≠ .leader ∨ resp.term ≠ rn.currentTerm then some rn
  else if resp.term > rn.currentTerm then some (rn.stepDown (disk.save 0) resp.term)
  else if resp.success then
    if req.entries.length > 0 then
      let matched := req.prevLogIndex + req.entries.length
      { rn with
        matchIndex := rn.matchIndex.insert peerID matched
        nextIndex := rn.nextIndex.insert peerID (matched + 1) }.updateCommitIndex
    else some rn
  else if rn.nextIndex.get peerID > 1 then
    some { rn with nextIndex := rn.nextIndex.insert peerID (rn.nextIndex.get peerID - 1) }
  else some rn

end RaftNode

end DistributedKV.Consensus
