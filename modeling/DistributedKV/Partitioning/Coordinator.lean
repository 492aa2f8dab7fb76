import DistributedKV.Lib.FanOut
import DistributedKV.Lib.GoMap
import DistributedKV.Lib.GoTime

/-!
# The transaction coordinator (`coordinator.go`)

A transaction collects operations and with them the shards that take part in it.
`ExecuteTransaction` runs two-phase commit: a prepare request to every participant, then, if all
vote to commit, a commit request to every participant; if a phase fails, an abort request to every
participant. The requests of a phase run in goroutines, and the lock is only held for single
writes.

The model is one transaction with all the calls that work on it: any number of executions,
`AddOperation` and the cleanup pass, interleaved at the granularity of the lock (`step`).
Transactions do not share state. An execution holds on to the transaction after a cleanup has
deleted it from the map (`listed`). What the shards answer is the environment.
-/

namespace DistributedKV.Partitioning

/-- `TransactionStatus`. -/
inductive TransactionStatus where
  | pending
  | preparing
  | prepared
  | committed
  | aborted
  | timeout
deriving DecidableEq, Repr

/-- The outcomes of a transaction. -/
def TransactionStatus.Terminal (status : TransactionStatus) : Prop :=
  status = .committed ∨ status = .aborted ∨ status = .timeout

instance (status : TransactionStatus) : Decidable status.Terminal :=
  inferInstanceAs (Decidable (_ ∨ _))

/-- The string constant of a status. -/
def TransactionStatus.text : TransactionStatus → String
  | .pending => "pending"
  | .preparing => "preparing"
  | .prepared => "prepared"
  | .committed => "committed"
  | .aborted => "aborted"
  | .timeout => "timeout"

/-- `VoteResult`. -/
inductive VoteResult where
  | commit
  | abort
deriving DecidableEq, Repr

/-- `TransactionOperation`. -/
structure TransactionOperation where
  type : String
  key : String
  shardID : UInt32

/-- `Transaction`. -/
structure Transaction where
  id : String
  startTime : Int
  status : TransactionStatus
  operations : List TransactionOperation
  participants : GoMap UInt32 Bool
  votes : GoMap UInt32 VoteResult
  timeout : Int64
  lastActivity : Int

namespace Transaction

/-- The transaction that `BeginTransaction` makes, with the default for the timeout 0. -/
def beginTransaction (id : String) (defaultTimeout timeout : Int64) (now : Int) :
    Transaction where
  id
  startTime := now
  status := .pending
  operations := []
  participants := ∅
  votes := ∅
  timeout := if timeout = 0 then defaultTimeout else timeout
  lastActivity := now

/-- A write of the status. -/
def setStatus (tx : Transaction) (status : TransactionStatus) (now : Int) : Transaction :=
  { tx with status, lastActivity := now }

/-- `AddOperation`, for a transaction that is found; `route` is what the router answers. -/
def addOperation (tx : Transaction) (operation : TransactionOperation)
    (route : Except String UInt32) (now : Int) : Transaction × Except String Unit :=
  if tx.status ≠ .pending then
    (tx, .error ("cannot add operations to transaction in status " ++ tx.status.text))
  else
    match route with
    | .error err => (tx, .error ("failed to route operation: " ++ err))
    | .ok shardID =>
      ({ tx with
          operations := tx.operations ++ [{ operation with shardID }]
          participants := tx.participants.insert shardID true
          lastActivity := now }, .ok ())

/-- The transaction has run out of time. -/
def TimedOut (tx : Transaction) (now : Int) : Prop := Time.sub now tx.startTime > tx.timeout

instance (tx : Transaction) (now : Int) : Decidable (tx.TimedOut now) :=
  inferInstanceAs (Decidable (_ > _))

end Transaction

/-- What a shard may answer to a prepare request. -/
inductive PrepareOutcome where
  | vote (vote : VoteResult)
  | error
deriving DecidableEq, Repr

/-- The answers of the shards, for every execution. -/
structure Environment where
  prepare : Nat → UInt32 → PrepareOutcome
  acks : Nat → UInt32 → Bool

/-- The shard votes to commit. -/
def Environment.votes (env : Environment) (i : Nat) (shardID : UInt32) : Bool :=
  env.prepare i shardID = .vote .commit

/-- How far an execution has come. -/
inductive Phase where
  /-- `ExecuteTransaction` has found the transaction. -/
  | found
  /-- `preparePhase`, waiting for its goroutines. -/
  | preparing (round : FanOut UInt32)
  /-- All votes have been checked; the status is still to be written. -/
  | voted
  /-- `commitPhase`, waiting for its goroutines. -/
  | committing (round : FanOut UInt32)
  /-- A phase has failed; `abortTransaction` is still to write the status. -/
  | failing
  /-- `abortTransaction` has returned; some of its goroutines are still to send. -/
  | aborting (unsent : List UInt32)
  | committed
deriving DecidableEq, Repr

/-- The messages between executions and shards. -/
inductive Message where
  | prepareSent (i : Nat) (shardID : UInt32)
  | commitSent (i : Nat) (shardID : UInt32)
  | commitAcked (i : Nat) (shardID : UInt32)
  | abortSent (i : Nat) (shardID : UInt32)
deriving DecidableEq, Repr

/-- One transaction and the executions that work on it. The log has the last message
first. -/
structure TxState where
  tx : Transaction
  listed : Bool
  executions : GoMap Nat Phase
  log : List Message

namespace TxState

variable (s : TxState)

/-- A transaction on which nobody works. -/
def start (tx : Transaction) : TxState := ⟨tx, true, ∅, []⟩

/-- The execution moves on. -/
def move (i : Nat) (phase : Phase) : TxState :=
  { s with executions := s.executions.insert i phase }

/-- The execution moves on with a write of the status. -/
def write (i : Nat) (phase : Phase) (status : TransactionStatus) (now : Int) :
    TxState :=
  { s.move i phase with tx := s.tx.setStatus status now }

/-- The execution moves on with a message. -/
def tell (i : Nat) (phase : Phase) (message : Message) : TxState :=
  { s.move i phase with log := message :: s.log }

/-- A vote is stored. -/
def storeVote (shardID : UInt32) : PrepareOutcome → TxState
  | .vote vote => { s with tx := { s.tx with votes := s.tx.votes.insert shardID vote } }
  | .error => s

/-- `cleanupOldTransactions`, for this transaction. -/
def cleanup (now : Int) : TxState :=
  if !s.listed then s
  else
    let listed := !(decide s.tx.status.Terminal &&
      decide (Time.sub now s.tx.lastActivity > 300000000000))
    if (s.tx.status = .pending ∨ s.tx.status = .preparing) ∧ s.tx.TimedOut now then
      { s with listed, tx := s.tx.setStatus .timeout now }
    else { s with listed }

/-- What may happen next. -/
inductive Action where
  | execute (i : Nat)
  | setPreparing (i : Nat) (now : Int)
  | sendPrepare (i : Nat) (shardID : UInt32)
  | receiveVote (i : Nat) (shardID : UInt32)
  | checkVotes (i : Nat)
  | setPrepared (i : Nat) (now : Int)
  | sendCommit (i : Nat) (shardID : UInt32)
  | receiveAck (i : Nat) (shardID : UInt32)
  | finishCommit (i : Nat) (now : Int)
  | setAborted (i : Nat) (now : Int)
  | sendAbort (i : Nat) (shardID : UInt32)
  | addOperation (operation : TransactionOperation) (route : Except String UInt32) (now : Int)
  | cleanup (now : Int)

/-- The execution that an action belongs to. -/
def Action.execution : Action → Option Nat
  | .execute i | .setPreparing i _ | .sendPrepare i _ | .receiveVote i _ | .checkVotes i
  | .setPrepared i _ | .sendCommit i _ | .receiveAck i _ | .finishCommit i _ | .setAborted i _
  | .sendAbort i _ => some i
  | .addOperation .. | .cleanup _ => none

/-- One step of an execution in its phase, `none` if the phase has no such step. -/
def advance (env : Environment) (s : TxState) (i : Nat) : Phase → Action → Option TxState
  | .found, .setPreparing _ now =>
    some (s.write i (.preparing (.start s.tx.participants.keys)) .preparing now)
  | .preparing round, .sendPrepare _ shardID =>
    (round.send shardID).map fun round => s.tell i (.preparing round) (.prepareSent i shardID)
  | .preparing round, .receiveVote _ shardID =>
    -- an error and an abort vote both go to the channel of errors
    (round.answer shardID (env.votes i shardID)).map fun round =>
      (s.move i (.preparing round)).storeVote shardID (env.prepare i shardID)
  | .preparing round, .checkVotes _ =>
    if !round.ended then none
    else if round.failed || s.tx.votes.entries.any (·.2 ≠ .commit) then some (s.move i .failing)
    else some (s.move i .voted)
  | .voted, .setPrepared _ now =>
    some (s.write i (.committing (.start s.tx.participants.keys)) .prepared now)
  | .committing round, .sendCommit _ shardID =>
    (round.send shardID).map fun round => s.tell i (.committing round) (.commitSent i shardID)
  | .committing round, .receiveAck _ shardID =>
    (round.answer shardID (env.acks i shardID)).map fun round =>
      if env.acks i shardID then s.tell i (.committing round) (.commitAcked i shardID)
      else s.move i (.committing round)
  | .committing round, .finishCommit _ now =>
    if !round.ended then none
    else if round.failed then some (s.move i .failing)
    else some (s.write i .committed .committed now)
  | .failing, .setAborted _ now =>
    some (s.write i (.aborting s.tx.participants.keys) .aborted now)
  | .aborting unsent, .sendAbort _ shardID =>
    if shardID ∈ unsent then
      some (s.tell i (.aborting (unsent.erase shardID)) (.abortSent i shardID))
    else none
  | _, _ => none

/-- One step. -/
def step (env : Environment) (s : TxState) : Action → Option TxState
  | .execute i =>
    if i ∈ s.executions then none
    -- a transaction that is not in the map is not found
    else if s.listed then some (s.move i .found) else some s
  | .addOperation operation route now =>
    if s.listed then some { s with tx := (s.tx.addOperation operation route now).1 } else some s
  | .cleanup now => some (s.cleanup now)
  | action =>
    action.execution.bind fun i =>
      (s.executions.lookup i).bind fun phase => s.advance env i phase action

end TxState

end DistributedKV.Partitioning
