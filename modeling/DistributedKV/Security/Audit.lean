import Mathlib.Algebra.Order.Ring.Int
import Mathlib.Data.List.Basic

/-!
# The audit log (`audit.go`)

`LogEvent` filters an event and puts it into a buffer, which is flushed to all writers when it is
full, after a critical event, by a ticker, and once more after `Stop`. A flush empties the buffer
whatever the writers have done with it.

What a write meets is an input (`WriteEnv`): the length of the line, the size of the file that a
rotation opens, and what goes wrong. Each accepted event carries its number, so that equal events
are told apart. Enrichers, checksum, signature, metrics and correlations are left out.
-/

namespace DistributedKV.Security.Audit

variable (config : AuditConfig)

/-- `LogLevel`. -/
inductive LogLevel where
  | debug
  | info
  | warn
  | error
  | fatal
  | other (level : String)
deriving DecidableEq, Repr

/-- The map in `compareLevels`: a level that is not in it counts as zero. -/
def LogLevel.rank : LogLevel → Int
  | .debug => 0
  | .info => 1
  | .warn => 2
  | .error => 3
  | .fatal => 4
  | .other _ => 0

/-- `compareLevels`. -/
def compareLevels (a b : LogLevel) : Int := a.rank - b.rank

/-- `Severity`. -/
inductive Severity where
  | low
  | medium
  | high
  | critical
  | other (severity : String)
deriving DecidableEq, Repr

/-- `AuditEvent`, as far as `LogEvent` looks at it. -/
structure AuditEvent where
  id : String
  level : LogLevel
  category : String
  action : String
  severity : Severity

/-- An accepted event with its number. -/
abbrev Entry := Nat × AuditEvent

/-- `AuditConfig`, as far as it concerns filters, buffer and writers. -/
structure AuditConfig where
  enableConsole : Bool
  enableFile : Bool
  enableSyslog : Bool
  enableRemote : Bool
  maxFileSize : Int
  bufferSize : Int
  flushOnCritical : Bool
  logLevel : LogLevel
  includeCategories : List String
  excludeCategories : List String
  includeActions : List String
  excludeActions : List String

/-- The default values that `NewAuditLogger` sets. -/
def AuditConfig.withDefaults : AuditConfig :=
  { config with
    bufferSize := if config.bufferSize = 0 then 1000 else config.bufferSize
    maxFileSize := if config.maxFileSize = 0 then 104857600 else config.maxFileSize }

/-! ## Filters -/

/-- A filter with a list of what is left out and, if it is not empty, one of what is let in. -/
def listFilter (included excluded : List String) (value : String) : Bool :=
  if value ∈ excluded then false else if included = [] then true else decide (value ∈ included)

/-- `LevelFilter.ShouldLog`. -/
def levelFilter (minLevel : LogLevel) (event : AuditEvent) : Bool :=
  decide (0 ≤ compareLevels event.level minLevel)

/-- `CategoryFilter.ShouldLog`. -/
def categoryFilter (event : AuditEvent) : Bool :=
  listFilter config.includeCategories config.excludeCategories event.category

/-- `ActionFilter.ShouldLog`. -/
def actionFilter (event : AuditEvent) : Bool :=
  listFilter config.includeActions config.excludeActions event.action

/-- The filters of `initializeFilters`; one without lists is not there and lets everything in.
-/
def shouldLog (event : AuditEvent) : Bool :=
  levelFilter config.logLevel event && categoryFilter config event && actionFilter config event

/-! ## Writers -/

/-- What can go wrong: encoding the event, opening the file of a rotation, writing to the file.
-/
inductive WriteFault where
  | marshal
  | reopen
  | write
deriving DecidableEq, Repr

/-- What a write meets. -/
structure WriteEnv where
  len : Nat
  reopened : Int
  fault : Option WriteFault

/-- `FileWriter`. -/
structure FileWriter where
  isOpen : Bool
  size : Int
  maxSize : Int

namespace FileWriter

variable (fw : FileWriter)

/-- The write to the file itself, which fails if the file is closed. -/
def append (env : WriteEnv) : FileWriter × Bool :=
  if fw.isOpen ∧ env.fault ≠ some .write then ({ fw with size := fw.size + env.len }, true)
  else (fw, false)

/-- The line does not fit, so the file is opened anew. -/
def Rotates (env : WriteEnv) : Prop := fw.maxSize < fw.size + env.len

instance (fw : FileWriter) (env : WriteEnv) : Decidable (fw.Rotates env) :=
  inferInstanceAs (Decidable (_ < _))

/-- `FileWriter.Write`. -/
def write (env : WriteEnv) : FileWriter × Bool :=
  if env.fault = some .marshal then (fw, false)
  else if fw.Rotates env then
    -- `rotate` closes the file before it opens the next one
    if env.fault = some .reopen then ({ fw with isOpen := false }, false)
    else { fw with isOpen := true, size := env.reopened }.append env
  else fw.append env

/-- Nothing keeps the file from taking an event. -/
def Lets (env : WriteEnv) : Prop :=
  env.fault ≠ some .marshal ∧ env.fault ≠ some .write ∧
    if fw.Rotates env then env.fault ≠ some .reopen else fw.isOpen = true

variable {fw : FileWriter} {env : WriteEnv}

theorem append_ok_iff : (fw.append env).2 = true ↔ fw.isOpen = true ∧ env.fault ≠ some .write := by
  rw [append]
  split
  · next h => exact iff_of_true rfl h
  · next h => exact iff_of_false Bool.false_ne_true h

theorem write_ok_iff : (fw.write env).2 = true ↔ fw.Lets env := by
  rw [write, Lets]
  by_cases hmarshal : env.fault = some .marshal
  · rw [if_pos hmarshal]
    exact iff_of_false Bool.false_ne_true fun h => h.1 hmarshal
  rw [if_neg hmarshal]
  by_cases hrotates : fw.Rotates env
  · rw [if_pos hrotates, if_pos hrotates]
    by_cases hreopen : env.fault = some .reopen
    · rw [if_pos hreopen]
      exact iff_of_false Bool.false_ne_true fun h => h.2.2 hreopen
    · rw [if_neg hreopen, append_ok_iff]
      exact ⟨fun h => ⟨hmarshal, h.2, hreopen⟩, fun h => ⟨rfl, h.2.1⟩⟩
  · rw [if_neg hrotates, if_neg hrotates, append_ok_iff]
    exact ⟨fun h => ⟨hmarshal, h.2, h.1⟩, fun h => ⟨h.2.2, h.2.1⟩⟩

/-- Without a fault, an open file takes an event and stays open. -/
theorem write_of_isOpen (hopen : fw.isOpen = true) (h : env.fault = none) :
    fw.Lets env ∧ (fw.write env).1.isOpen = true := by
  by_cases hrotates : fw.Rotates env <;> simp [Lets, write, append, hrotates, hopen, h]

end FileWriter

/-- The writers. -/
inductive WriterKind where
  | console
  | file (fw : FileWriter)
  | syslog
  | remote

/-- A writer with what it has written. -/
structure Writer where
  kind : WriterKind
  written : List Entry

namespace Writer

/-- `Write` of the four writers. The system log and the remote end are placeholders in the
source, which report success: that counts as written. -/
def write (w : Writer) (env : WriteEnv) (entry : Entry) : Writer × Bool :=
  match w.kind with
  | .console =>
    if env.fault = some .marshal then (w, false) else (⟨.console, w.written ++ [entry]⟩, true)
  | .file fw =>
    if (fw.write env).2 then (⟨.file (fw.write env).1, w.written ++ [entry]⟩, true)
    else (⟨.file (fw.write env).1, w.written⟩, false)
  | .syslog => (⟨.syslog, w.written ++ [entry]⟩, true)
  | .remote => (⟨.remote, w.written ++ [entry]⟩, true)

/-- `WriteBatch`: the events one after the other, up to the first that fails. -/
def writeBatch (w : Writer) (env : Nat → WriteEnv) : List Entry → Writer × Bool
  | [] => (w, true)
  | entry :: entries =>
    if (w.write (env 0) entry).2 then
      (w.write (env 0) entry).1.writeBatch (fun i => env (i + 1)) entries
    else ((w.write (env 0) entry).1, false)

/-- `Close`: only the file is closed. -/
def close (w : Writer) : Writer :=
  match w.kind with
  | .file fw => ⟨.file { fw with isOpen := false }, w.written⟩
  | _ => w

/-- The writer has something to write to. Only `FileWriter.Close` takes that away. -/
def isOpen (w : Writer) : Bool :=
  match w.kind with
  | .file fw => fw.isOpen
  | _ => true

/-- Nothing keeps the writer from taking an event. -/
def Lets (w : Writer) (env : WriteEnv) : Prop :=
  match w.kind with
  | .console => env.fault ≠ some .marshal
  | .file fw => fw.Lets env
  | _ => True

/-- Nothing keeps the writer from taking a batch. -/
def Takes (w : Writer) (env : Nat → WriteEnv) : List Entry → Prop
  | [] => True
  | entry :: entries =>
    w.Lets (env 0) ∧ (w.write (env 0) entry).1.Takes (fun i => env (i + 1)) entries

variable (w : Writer) (env : Nat → WriteEnv) (entries : List Entry)

@[simp] theorem written_close : w.close.written = w.written := by
  rw [close]
  split <;> rfl

theorem write_ok_iff (env : WriteEnv) (entry : Entry) :
    (w.write env entry).2 = true ↔ w.Lets env := by
  obtain ⟨kind, written⟩ := w
  cases kind with
  | console =>
    show (if env.fault = some .marshal then _ else _ : Writer × Bool).2 = true ↔
      env.fault ≠ some .marshal
    split
    · next hfault => exact iff_of_false Bool.false_ne_true fun h => h hfault
    · next hfault => exact iff_of_true rfl hfault
  | file fw =>
    show (if (fw.write env).2 then _ else _ : Writer × Bool).2 = true ↔ fw.Lets env
    rw [← FileWriter.write_ok_iff]
    split
    · next hok => exact iff_of_true rfl hok
    · next hok => exact iff_of_false Bool.false_ne_true hok
  | syslog => exact iff_of_true rfl trivial
  | remote => exact iff_of_true rfl trivial

theorem written_write (env : WriteEnv) (entry : Entry) : (w.write env entry).1.written =
      if (w.write env entry).2 then w.written ++ [entry] else w.written := by
  obtain ⟨kind, written⟩ := w
  cases kind with
  | console => by_cases hfault : env.fault = some .marshal <;> simp [write, hfault]
  | file fw => by_cases hok : (fw.write env).2 = true <;> simp [write, hok]
  | syslog => rfl
  | remote => rfl

/-- **A batch is written up to the first event that fails.** -/
theorem writeBatch_split : ∃ done rest, entries = done ++ rest ∧
      (w.writeBatch env entries).1.written = w.written ++ done ∧
      (rest = [] ↔ (w.writeBatch env entries).2 = true) := by
  induction entries generalizing w env with
  | nil => exact ⟨[], [], rfl, (List.append_nil _).symm, iff_of_true rfl rfl⟩
  | cons entry entries ih =>
    have hwritten := written_write w (env 0) entry
    rw [writeBatch]
    by_cases hok : (w.write (env 0) entry).2 = true
    · rw [if_pos hok] at hwritten ⊢
      obtain ⟨done, rest, hsplit, hdone, hrest⟩ := ih (w.write (env 0) entry).1 fun i => env (i + 1)
      refine ⟨entry :: done, rest, congrArg (entry :: ·) hsplit, ?_, hrest⟩
      rw [hdone, hwritten, List.append_assoc, List.singleton_append]
    -- the rest of the batch is not tried
    rw [if_neg hok] at hwritten ⊢
    exact ⟨[], entry :: entries, rfl, hwritten.trans (List.append_nil _).symm,
      iff_of_false (List.cons_ne_nil _ _) Bool.false_ne_true⟩

/-- A writer takes a batch as a whole exactly if nothing keeps it from that. -/
theorem writeBatch_ok_iff : (w.writeBatch env entries).2 = true ↔ w.Takes env entries := by
  induction entries generalizing w env with
  | nil => exact iff_of_true rfl trivial
  | cons entry entries ih =>
    rw [writeBatch, Takes, ← write_ok_iff w (env 0) entry]
    by_cases hok : (w.write (env 0) entry).2 = true
    · rw [if_pos hok, ih]
      exact (and_iff_right hok).symm
    · rw [if_neg hok]
      exact iff_of_false Bool.false_ne_true fun h => hok h.1

instance (w : Writer) (env : Nat → WriteEnv) (entries : List Entry) :
    Decidable (w.Takes env entries) :=
  decidable_of_iff _ (writeBatch_ok_iff w env entries)

section Open

variable {w env entries}

theorem write_of_isOpen {env : WriteEnv} (entry : Entry) (hopen : w.isOpen = true)
    (h : env.fault = none) : w.Lets env ∧ (w.write env entry).1.isOpen = true := by
  obtain ⟨kind, written⟩ := w
  cases kind with
  | console => simp [Lets, write, isOpen, h]
  | file fw =>
    obtain ⟨hlets, hstill⟩ := FileWriter.write_of_isOpen hopen h
    exact ⟨hlets, by simp [write, isOpen, FileWriter.write_ok_iff.mpr hlets, hstill]⟩
  | syslog | remote => exact ⟨trivial, rfl⟩

/-- **Without faults, an open writer takes every batch** and stays open. -/
theorem writeBatch_of_isOpen (hopen : w.isOpen = true) (h : ∀ i, (env i).fault = none) :
    w.Takes env entries ∧ (w.writeBatch env entries).1.isOpen = true := by
  induction entries generalizing w env with
  | nil => exact ⟨trivial, hopen⟩
  | cons entry entries ih =>
    obtain ⟨hlets, hstill⟩ := write_of_isOpen entry hopen (h 0)
    obtain ⟨htakes, hend⟩ := ih hstill fun i => h (i + 1)
    rw [writeBatch, if_pos ((write_ok_iff ..).mpr hlets)]
    exact ⟨⟨hlets, htakes⟩, hend⟩

end Open

end Writer

/-! ## The logger -/

/-- What the writers meet in a flush: for each writer and each place in the batch. -/
abbrev FlushEnv := Nat → Nat → WriteEnv

/-- `AuditLogger`, with all events that it has accepted. -/
structure AuditLogger where
  config : AuditConfig
  writers : List Writer
  buffer : List Entry
  isRunning : Bool
  accepted : List Entry

namespace AuditLogger

variable (al : AuditLogger)

/-- `initializeWriters`, if the file can be opened. -/
def initializeWriters (config : AuditConfig) (fileSize : Int) : List Writer :=
  (if config.enableConsole then [⟨.console, []⟩] else []) ++
  (if config.enableFile then [⟨.file ⟨true, fileSize, config.maxFileSize⟩, []⟩] else []) ++
  (if config.enableSyslog then [⟨.syslog, []⟩] else []) ++
  if config.enableRemote then [⟨.remote, []⟩] else []

/-- `NewAuditLogger`. `file` is the size of the log file, if it can be opened. A negative buffer
size makes the program panic. -/
def new (config : AuditConfig) (file : Option Int) : Option AuditLogger :=
  if config.bufferSize < 0 ∨ (config.enableFile = true ∧ file = none) then none
  else some
    { config := config.withDefaults
      writers := initializeWriters config.withDefaults (file.getD 0)
      buffer := []
      isRunning := true
      accepted := [] }

/-- `flushBuffer`: the buffer is emptied whatever the writers report. -/
def flushBuffer (env : FlushEnv) : AuditLogger :=
  if al.buffer = [] then al
  else
    { al with
      writers := al.writers.mapIdx fun i w => (w.writeBatch (env i) al.buffer).1
      buffer := [] }

/-- The event that `LogEvent` accepts goes to the end of the buffer. -/
def accept (event : AuditEvent) : AuditLogger :=
  { al with
    buffer := al.buffer ++ [(al.accepted.length, event)]
    accepted := al.accepted ++ [(al.accepted.length, event)] }

/-- The buffer has no room for another event. -/
def Overflows : Prop := al.config.bufferSize ≤ al.buffer.length

instance (al : AuditLogger) : Decidable al.Overflows := inferInstanceAs (Decidable (_ ≤ _))

/-- The event is flushed at once. -/
def Critical (event : AuditEvent) : Prop :=
  al.config.flushOnCritical = true ∧
    (event.level = .error ∨ event.level = .fatal ∨ event.severity = .critical)

instance (al : AuditLogger) (event : AuditEvent) : Decidable (al.Critical event) :=
  inferInstanceAs (Decidable (_ ∧ _))

/-- The first part of `LogEvent`: a full buffer is flushed. -/
def makeRoom (env : FlushEnv) : AuditLogger :=
  if al.Overflows then al.flushBuffer env else al

/-- `LogEvent`, with what the writers meet if the buffer is full and if the event is critical.
-/
def logEvent (event : AuditEvent) (overflow critical : FlushEnv) :
    AuditLogger :=
  if shouldLog al.config event then
    if al.Critical event then ((al.makeRoom overflow).accept event).flushBuffer critical
    else (al.makeRoom overflow).accept event
  else al

/-- `Stop`: it does not wait for the goroutine that flushes the buffer for the last time. -/
def stop : AuditLogger :=
  if al.isRunning then { al with writers := al.writers.map Writer.close, isRunning := false }
  else al

end AuditLogger

end DistributedKV.Security.Audit
