import Mathlib.Algebra.Order.Ring.Int
import Mathlib.Data.List.AList

/-!
# Persistent state of a Raft node (`persistent_state.go`, `log_storage.go`)

A node keeps the term and vote (`state.json`, managed by `PersistentState`) and the log entries
(`metadata.json` and `entries.json`, managed by `LogStorage`) on disk. Each manager holds a copy
in memory next to its files: a handler reads and writes the copy, a restart the files only.

A file is modeled by what decoding its JSON yields, `none` for a missing or unreadable one. The
outcome of every disk write is an input (`Disk`). Terms and indexes, `int64` in the source, are
integers here.
-/

namespace DistributedKV.Consensus

/-- `cluster.LogEntry` (cluster.proto). -/
structure LogEntry where
  index : Int
  term : Int
  type : String
  data : List UInt8
  timestamp : Int
deriving DecidableEq, Repr

/-! ## Term and vote -/

/-- `PersistentStateData`: term and vote. The empty string is "no vote in this term". -/
structure PersistentStateData where
  currentTerm : Int
  votedFor : String

/-- `PersistentState`: the manager's copy `data` and the content of `state.json`. -/
structure PersistentState where
  data : PersistentStateData
  file : PersistentStateData

/-- `NewPersistentState`: read `state.json`; a missing file is created with the
default values. -/
def newPersistentState (file : Option PersistentStateData) : PersistentState :=
  let data := file.getD { currentTerm := 0, votedFor := "" }
  { data := data, file := data }

/-- `PersistentState.Save`: the copy is replaced first, then the file is written to a temporary
name and renamed, so a failed write leaves the old file in place. -/
def PersistentState.save (ps : PersistentState) (ok : Bool) (data : PersistentStateData) :
    PersistentState :=
  { data := data, file := if ok then data else ps.file }

/-! ## Log storage -/

/-- `LogMetadata`, the content of `metadata.json`. -/
structure LogMetadata where
  firstIndex : Int
  lastIndex : Int
  compactTo : Int

/-- `LogStorage`: in-memory entries and counters, and the two files. -/
structure LogStorage where
  entries : List LogEntry
  lastIndex : Int
  compactTo : Int
  metadataFile : Option LogMetadata
  logFile : Option (List LogEntry)

/-- How the writes of one `persist` call end. `metadata.json` is written in place, so a failed
write leaves whatever `left` decodes to; a failed write of the entries leaves `entries.json`
alone. -/
inductive PersistOutcome where
  | written
  | metadataFailed (left : Option LogMetadata)
  | entriesFailed

/-- The errors `persist` returns. -/
inductive PersistError where
  | metadata
  | entries
deriving DecidableEq, Repr

/-- `LogStorage.persist`: metadata first, then the entries. -/
def LogStorage.persist (ls : LogStorage) : PersistOutcome → LogStorage × Option PersistError
  | .metadataFailed left => ({ ls with metadataFile := left }, some .metadata)
  | .entriesFailed =>
    ({ ls with metadataFile := some ⟨ls.compactTo + 1, ls.lastIndex, ls.compactTo⟩ },
      some .entries)
  | .written =>
    ({ ls with
        metadataFile := some ⟨ls.compactTo + 1, ls.lastIndex, ls.compactTo⟩
        logFile := some ls.entries },
      none)

/-- `LogStorage.AppendEntries`: append, move `lastIndex` to the last entry's
index, persist. -/
def LogStorage.appendEntries (ls : LogStorage) (outcome : PersistOutcome)
    (entries : List LogEntry) : LogStorage × Option PersistError :=
  let ls := { ls with
    entries := ls.entries ++ entries
    lastIndex := (entries.getLast?.map LogEntry.index).getD ls.lastIndex }
  ls.persist outcome

/-- `LogStorage.loadLog`: readable metadata gives the counters, the log file the entries. -/
def loadLog (metadataFile : Option LogMetadata) (logFile : Option (List LogEntry)) :
    LogStorage :=
  { entries := logFile.getD []
    lastIndex := (metadataFile.map LogMetadata.lastIndex).getD 0
    compactTo := (metadataFile.map LogMetadata.compactTo).getD 0
    metadataFile := metadataFile
    logFile := logFile }

@[simp] theorem appendEntries_entries (ls : LogStorage) (outcome : PersistOutcome)
    (entries : List LogEntry) :
    (ls.appendEntries outcome entries).1.entries = ls.entries ++ entries := by
  cases outcome <;> rfl

/-! ## The disk during one call -/

/-- What the disk answers to one handler call: `save n` for its `n`-th save, `persist` for the
log. -/
structure Disk where
  save : Nat → Bool
  persist : PersistOutcome

/-- Every write succeeds. -/
def Disk.healthy : Disk := { save := fun _ => true, persist := .written }

end DistributedKV.Consensus
