import Mathlib.Data.Countable.Basic
import Mathlib.Logic.Equiv.List
import DistributedKV.Lib.CrashFs
import DistributedKV.Consensus.LogStorage

/-!
# Crashes while the files of a node are written

The calls of `Persistence` are taken apart into the file operations they make, and the machine
may stop in or between any of them (`CrashFs`). `state.json` is replaced by a finished copy, but
`metadata.json` is overwritten in place before the copy of `entries.json` is begun, so a machine
that stops in between comes back with the counters of one state and the entries of another, or
without counters.

How values become bytes is a parameter (`Codec`): what is marshalled is read back, and of the
metadata, a JSON object, no proper first part can be read.
-/

namespace DistributedKV.Consensus

variable (codec : LogCodec)

open CrashFs Function Option

/-! ## Term and vote -/

/-- The files of `PersistentState`: `state.json` and `state.json.tmp`. -/
inductive StatePath where
  | file
  | temp
deriving DecidableEq, Repr

/-- The error text of a failed replacement, as both managers wrap it. -/
def replaceError {P : Type} (what : String) : FsCall P UInt8 × String → String
  | (.rename _ _, err) => "failed to rename temp " ++ what ++ ": " ++ err
  | (_, err) => "failed to write temp " ++ what ++ ": " ++ err

/-- `PersistentState.save`. -/
def saveProgram (codec : Codec UInt8 PersistentStateData) (data : PersistentStateData) :
    FsProg StatePath UInt8 String (Option String) :=
  (replaceFile .temp .file (codec.marshal data)).bind fun result =>
    .ret (result.map (replaceError "file"))

/-- The errors of `load`. -/
inductive LoadError where
  | notExist
  | unmarshal

/-- `PersistentState.load`. -/
def load (codec : Codec UInt8 PersistentStateData) (files : Files StatePath UInt8) :
    Except LoadError PersistentStateData :=
  match files .file with
  | none => .error .notExist
  | some bytes =>
    match codec.unmarshal bytes with
    | none => .error .unmarshal
    | some data => .ok data

section State

variable {codec : Codec UInt8 PersistentStateData} {files : Files StatePath UInt8}
  {data : PersistentStateData}

theorem load_of_marshal (h : files .file = some (codec.marshal data)) :
    load codec files = .ok data := by
  simp only [load, h, codec.round_trip]

/-- `save` leaves the old file or the new one, and the new one exactly if it ends without an
error. -/
theorem saveProgram_safe (new : PersistentStateData) : Safe files (saveProgram codec new)
      (fun files' => files' .file = files .file ∨ files' .file = some (codec.marshal new))
      (fun files' result =>
        files' .file = if result.isNone then some (codec.marshal new) else files .file) := by
  refine .bind (replaceFile_safe.mono (fun files' h => ?_) fun files' result h => .ret ?_)
  · rcases h with h | h
    · exact .inl (h .file (by decide))
    · exact .inr h.1
  cases result with
  | none => exact h.1
  | some failed => exact h .file (by decide)

/-- **Term and vote survive a crash as a pair.** Whatever happens to each file operation of
`save`, the next load has exactly the old term and vote or exactly the new ones. -/
theorem save_crash_atomic (codec : Codec UInt8 PersistentStateData)
    (files : Files StatePath UInt8) (old new : PersistentStateData)
    (hold : files .file = some (codec.marshal old)) (fates : List (Fate String)) :
    load codec (run (saveProgram codec new) files fates).1 = .ok old ∨
      load codec (run (saveProgram codec new) files fates).1 = .ok new := by
  refine (saveProgram_safe new).left (G := fun files' => load codec files' = .ok old ∨
    load codec files' = .ok new) (fun files' h => ?_) (fun files' result h => ?_) fates
  · rcases h with h | h
    · exact .inl (load_of_marshal (h.trans hold))
    · exact .inr (load_of_marshal h)
  cases result with
  | none => exact .inr (load_of_marshal h)
  | some err => exact .inl (load_of_marshal (h.trans hold))

/-- A call that ends is the `save` of `Persistence`: a load finds the file of the abstract
state. -/
theorem save_refines {ps : PersistentState} {new : PersistentStateData} {fates : List (Fate String)}
    {files' : Files StatePath UInt8} {result : Option String}
    (hfile : files .file = some (codec.marshal ps.file))
    (hrun : run (saveProgram codec new) files fates = (files', some result)) :
    load codec files' = .ok (ps.save result.isNone new).file := by
  have hsafe : Safe files (saveProgram codec new) _ _ := saveProgram_safe new
  have hleft := hsafe fates
  rw [hrun] at hleft
  cases result with
  | none => exact load_of_marshal hleft
  | some err => exact load_of_marshal (hleft.trans hfile)

end State

/-! ## The log -/

/-- The files of `LogStorage`: `metadata.json`, `entries.json` and `entries.json.tmp`. -/
inductive LogPath where
  | metadata
  | entries
  | temp
deriving DecidableEq, Repr

/-- How the metadata and the entries are written. -/
structure LogCodec where
  metadata : Codec UInt8 LogMetadata
  delimited : metadata.Delimited
  entries : Codec UInt8 (List LogEntry)

/-- The metadata of the fields. -/
def LogStorage.toMetadata (ls : LogStorage) : LogMetadata :=
  ⟨ls.compactTo + 1, ls.lastIndex, ls.compactTo⟩

/-- `LogStorage.persist` as a program. -/
def LogStorage.persistProgram (ls : LogStorage) :
    FsProg LogPath UInt8 String (Option String) :=
  .call (.writeFile .metadata (codec.metadata.marshal ls.toMetadata)) fun
    | some err => .ret (some ("failed to write metadata: " ++ err))
    | none =>
      (replaceFile .temp .entries (codec.entries.marshal ls.entries)).bind fun result =>
        .ret (result.map (replaceError "log file"))

/-- `loadLog`: unreadable metadata is passed over, unreadable entries are an error. -/
def loadFiles (files : Files LogPath UInt8) : Except String LogStorage :=
  let metadata := (files .metadata).bind codec.metadata.unmarshal
  match files .entries with
  | none => .ok (loadLog metadata none)
  | some bytes =>
    match codec.entries.unmarshal bytes with
    | none => .error "failed to unmarshal log entries"
    | some entries => .ok (loadLog metadata (some entries))

/-- The calls that change the log. -/
inductive StorageChange where
  | appendEntries (entries : List LogEntry)
  | truncateFrom (index : Int)
  | compact (upToIndex : Int)
  | installSnapshot (snapshot : LogSnapshot) (entries : List LogEntry)

/-- The fields that the call persists; `none` if it returns before it persists anything. -/
def StorageChange.after (ls : LogStorage) : StorageChange → Option LogStorage
  | .appendEntries entries => some (ls.appended entries)
  | .truncateFrom index => if index ≤ ls.compactTo then none else some (ls.truncated index)
  | .compact upToIndex => if upToIndex ≤ ls.compactTo then none else some (ls.compacted upToIndex)
  | .installSnapshot snapshot entries => some (ls.installed snapshot entries)

open LogStorage

/-- The file operations of the call. -/
def StorageChange.program (ls : LogStorage) (change : StorageChange) :
    FsProg LogPath UInt8 String (Option String) :=
  match change.after ls with
  | none => .ret none
  | some after => after.persistProgram codec

/-- How far the writes of `persist` have come. -/
inductive Reach where
  /-- Nothing is changed. -/
  | untouched
  /-- A proper first part of the metadata is there, the entries are the old ones. -/
  | torn
  /-- The new metadata are there, the entries are the old ones. -/
  | half
  /-- Both are the new ones. -/
  | whole

/-- How far they come if the write of the metadata, of `size` bytes, is cut off. -/
def cutReach (size : Nat) : Cut → Reach
  | .untouched => .untouched
  | .begun n => if n < size then .torn else .half

/-- How far they come under given fates. -/
def reach (size : Nat) : List (Fate String) → Reach
  | [] => .untouched
  | .fails _ cut :: _ => cutReach size cut
  | .stops cut :: _ => cutReach size cut
  | .done :: fates => if replaces fates then .whole else .half

/-- The fields that a load then finds, if it found those of `disk` before. -/
def Reach.found (disk after : LogStorage) : Reach → LogStorage
  | .untouched => disk
  | .torn => { disk with lastIndex := 0, compactTo := 0 }
  | .half => { disk with lastIndex := after.lastIndex, compactTo := after.compactTo }
  | .whole => after

/-- The next `loadLog` succeeds and has these fields. -/
def LoadsAs (files : Files LogPath UInt8) (ls : LogStorage) : Prop :=
  ∃ t, loadFiles codec files = .ok t ∧ LogStorage.SameFields t ls

section Log

variable {codec : LogCodec} {files files' : Files LogPath UInt8} {disk after : LogStorage}

theorem LogStorage.SameFields.symm {ls ls' : LogStorage} (h : SameFields ls ls') :
    SameFields ls' ls :=
  ⟨h.1.symm, h.2.1.symm, h.2.2.symm⟩

theorem LogStorage.SameFields.trans {a b c : LogStorage} (h : SameFields a b)
    (h' : SameFields b c) : SameFields a c :=
  ⟨h.1.trans h'.1, h.2.1.trans h'.2.1, h.2.2.trans h'.2.2⟩

theorem LoadsAs.iff_sameFields {ls ls' : LogStorage} (h : LoadsAs codec files ls) :
    LoadsAs codec files ls' ↔ LogStorage.SameFields ls ls' := by
  obtain ⟨t, hload, hsame⟩ := h
  constructor
  · rintro ⟨u, hload', hsame'⟩
    obtain rfl := Except.ok.inj (hload.symm.trans hload')
    exact hsame.symm.trans hsame'
  · exact fun hfields => ⟨t, hload, hsame.trans hfields⟩

/-- With the entries file as it was, a load has the old entries and the counters of the
metadata. -/
theorem LoadsAs.of_same_entries (h : LoadsAs codec files disk)
    (hentries : files' .entries = files .entries) :
    LoadsAs codec files' { disk with
      lastIndex :=
        (((files' .metadata).bind codec.metadata.unmarshal).map LogMetadata.lastIndex).getD 0
      compactTo := (((files' .metadata).bind codec.metadata.unmarshal).map
        LogMetadata.compactTo).getD 0 } := by
  obtain ⟨t, hload, hsame, -, -⟩ := h
  unfold LoadsAs loadFiles at *
  rw [hentries]
  cases hfile : files .entries with
  | none =>
    simp only [hfile] at hload ⊢
    cases hload
    exact ⟨_, rfl, hsame, rfl, rfl⟩
  | some bytes =>
    simp only [hfile] at hload ⊢
    cases hread : codec.entries.unmarshal bytes with
    | none => simp only [hread, reduceCtorEq] at hload
    | some entries =>
      simp only [hread] at hload ⊢
      cases hload
      exact ⟨_, rfl, hsame, rfl, rfl⟩

theorem LoadsAs.of_metadata (h : LoadsAs codec files disk)
    (hentries : files' .entries = files .entries)
    (hmetadata : files' .metadata = some (codec.metadata.marshal after.toMetadata)) :
    LoadsAs codec files' (Reach.half.found disk after) := by
  have hread := h.of_same_entries hentries
  rw [hmetadata, bind_some, codec.metadata.round_trip] at hread
  exact hread

/-- The metadata file after a write that was cut off, with the entries as they were. -/
theorem LoadsAs.of_cut (h : LoadsAs codec files disk) (after : LogStorage) (cut : Cut) :
    LoadsAs codec
      ((FsCall.writeFile .metadata (codec.metadata.marshal after.toMetadata)).stopped files cut)
      ((cutReach (codec.metadata.marshal after.toMetadata).length cut).found disk after) := by
  cases cut with
  | untouched => exact h
  | begun n =>
    set left := Function.update files LogPath.metadata
      (some ((codec.metadata.marshal after.toMetadata).take n)) with hleft
    have hentries : left .entries = files .entries := by
      rw [hleft, update_of_ne (by decide)]
    have hmetadata : left .metadata = some ((codec.metadata.marshal after.toMetadata).take n) := by
      rw [hleft, update_self]
    by_cases hn : n < (codec.metadata.marshal after.toMetadata).length
    · have hread := h.of_same_entries hentries
      rw [hmetadata, bind_some, codec.delimited _ _ hn] at hread
      rw [cutReach, if_pos hn]
      exact hread
    · rw [List.take_of_length_le (by omega)] at hmetadata
      rw [cutReach, if_neg hn]
      exact h.of_metadata hentries hmetadata

/-- **What a load finds** after `persist`, whatever happened to its file operations. -/
theorem loadsAs_persist (h : LoadsAs codec files disk) (after : LogStorage)
    (fates : List (Fate String)) : LoadsAs codec (run (after.persistProgram codec) files fates).1
      ((reach (codec.metadata.marshal after.toMetadata).length fates).found disk after) := by
  match fates with
  | [] => exact h
  | .stops cut :: _ => exact h.of_cut after cut
  | .fails err cut :: _ =>
    have hleft := h.of_cut after cut
    cases cut <;> exact hleft
  | .done :: fates =>
    show LoadsAs codec (run ((replaceFile .temp .entries _).bind _) (Function.update files
      LogPath.metadata (some (codec.metadata.marshal after.toMetadata))) fates).1 _
    set written := Function.update files LogPath.metadata
      (some (codec.metadata.marshal after.toMetadata)) with hwritten
    have hmetadata : written .metadata = some (codec.metadata.marshal after.toMetadata) := by
      rw [hwritten, update_self]
    have hentries : written .entries = files .entries := by
      rw [hwritten, update_of_ne (by decide)]
    rw [run_bind_ret]
    have hreplace := run_replaceFile LogPath.temp .entries (codec.entries.marshal after.entries)
      written fates
    rw [reach]
    split at hreplace
    · next hyes =>
      rw [if_pos hyes]
      have hboth := (hreplace.2 .metadata (by decide) (by decide)).trans hmetadata
      refine ⟨loadLog (some after.toMetadata) (some after.entries), ?_, rfl, rfl, rfl⟩
      simp only [loadFiles, hboth, hreplace.1, bind_some, codec.metadata.round_trip,
        codec.entries.round_trip]
    · next hno =>
      rw [if_neg hno]
      exact h.of_metadata ((hreplace .entries (by decide)).trans hentries)
        ((hreplace .metadata (by decide)).trans hmetadata)

/-- The files hold what the state says they do. -/
def Holds (codec : LogCodec) (files : Files LogPath UInt8) (ls : LogStorage) : Prop :=
  (files .metadata).bind codec.metadata.unmarshal = ls.metadataFile ∧
    (files .entries).bind codec.entries.unmarshal = ls.logFile

/-- A `persist` that ends is the one of `Persistence`, with an outcome that fits its result. -/
theorem persist_refines {ls : LogStorage} (h : Holds codec files ls) :
    Safe files (ls.persistProgram codec) (fun _ => True) fun files' result =>
      ∃ outcome, Holds codec files' (ls.persist outcome).1 ∧
        (ls.persist outcome).2.isNone = result.isNone := by
  obtain ⟨hmetadata, hentries⟩ := h
  have hread : ∀ bytes, (Function.update files LogPath.metadata (some bytes) .entries).bind
      codec.entries.unmarshal = ls.logFile := by
    intro bytes
    rw [update_of_ne (by decide), hentries]
  refine .call (fun _ => trivial) ?_ fun err cut => .ret ?_
  · -- the metadata are written, the entries are replaced or not
    refine .bind (replaceFile_safe.mono (fun _ _ => trivial) fun files' result hleft => .ret ?_)
    cases result with
    | none =>
      refine ⟨.written, ⟨?_, ?_⟩, rfl⟩
      · rw [hleft.2 .metadata (by decide) (by decide)]
        exact codec.metadata.round_trip _
      · rw [hleft.1]
        exact codec.entries.round_trip _
    | some failed =>
      refine ⟨.entriesFailed, ⟨?_, ?_⟩, rfl⟩
      · rw [hleft .metadata (by decide)]
        exact codec.metadata.round_trip _
      · rw [hleft .entries (by decide)]
        exact hread _
  · cases cut with
    | untouched => exact ⟨.metadataFailed ls.metadataFile, ⟨hmetadata, hentries⟩, rfl⟩
    | begun n => exact ⟨.metadataFailed _, ⟨rfl, hread _⟩, rfl⟩

/-- A crash at this point cannot be seen: the parts from different states are the same in both.
-/
def Reach.Harmless (disk after : LogStorage) : Reach → Prop
  | .untouched | .whole => True
  | .torn => (disk.lastIndex = 0 ∧ disk.compactTo = 0) ∨
      (disk.entries = after.entries ∧ after.lastIndex = 0 ∧ after.compactTo = 0)
  | .half => (disk.lastIndex = after.lastIndex ∧ disk.compactTo = after.compactTo) ∨
      disk.entries = after.entries

/-- **When the log survives a crash as a whole.** For every directory that loads, every call
that changes the log and whatever happens to its file operations: the next `loadLog` has
everything as before the call or everything as after it, exactly if the crash does no harm where
it stopped. -/
theorem persist_atomic_iff (codec : LogCodec) (files : Files LogPath UInt8) (disk : LogStorage)
    (hdisk : LoadsAs codec files disk) (ls : LogStorage) (change : StorageChange)
    (fates : List (Fate String)) :
    (LoadsAs codec (run (change.program codec ls) files fates).1 disk ∨
      ∃ after ∈ change.after ls,
        LoadsAs codec (run (change.program codec ls) files fates).1 after) ↔
    ∀ after ∈ change.after ls,
      (reach (codec.metadata.marshal after.toMetadata).length fates).Harmless disk after := by
  unfold StorageChange.program
  cases hafter : change.after ls with
  | none => exact iff_of_true (.inl hdisk) (by simp)
  | some after =>
    have hfound := loadsAs_persist hdisk after fates
    simp only [mem_some_iff, exists_eq_left', forall_eq']
    rw [hfound.iff_sameFields, hfound.iff_sameFields]
    cases reach (codec.metadata.marshal after.toMetadata).length fates with
    | untouched => exact iff_of_true (.inl ⟨rfl, rfl, rfl⟩) trivial
    | whole => exact iff_of_true (.inr ⟨rfl, rfl, rfl⟩) trivial
    | torn => simp only [Reach.found, Reach.Harmless, LogStorage.SameFields, true_and, eq_comm]
    | half =>
      simp only [Reach.found, Reach.Harmless, LogStorage.SameFields, true_and, and_true, eq_comm]

end Log

/-! ## There are codecs

What follows holds for every codec, that of `encoding/json` included. The one from `exists_codec`
only shows that there is any.
-/

instance countableChar : Countable Char :=
  Function.Injective.countable (f := Char.toNat) fun _ _ h => Char.toNat_inj.mp h

instance countableString : Countable String :=
  Function.Injective.countable (f := String.toList) fun _ _ h => String.toList_inj.mp h

instance countableByte : Countable UInt8 :=
  Function.Injective.countable (f := UInt8.toNat) fun _ _ h => UInt8.toNat_inj.mp h

instance countablePersistentStateData : Countable PersistentStateData :=
  Function.Injective.countable (f := fun d : PersistentStateData => (d.currentTerm, d.votedFor))
    fun ⟨_, _⟩ ⟨_, _⟩ h => by simpa using h

instance countableLogMetadata : Countable LogMetadata :=
  Function.Injective.countable
    (f := fun m : LogMetadata => (m.firstIndex, m.lastIndex, m.compactTo))
    fun ⟨_, _, _⟩ ⟨_, _, _⟩ h => by simpa using h

instance countableLogEntry : Countable LogEntry :=
  Function.Injective.countable
    (f := fun e : LogEntry => (e.index, e.term, e.type, e.data, e.timestamp))
    fun ⟨_, _, _, _, _⟩ ⟨_, _, _, _, _⟩ h => by simpa using h

theorem exists_logCodec : Nonempty LogCodec := by
  obtain ⟨metadata, hdelimited⟩ := exists_codec LogMetadata
  obtain ⟨entries, -⟩ := exists_codec (List LogEntry)
  exact ⟨⟨metadata, hdelimited, entries⟩⟩

/-- A vote in term 3 while term 2 is on disk; the machine stops in the rename. -/
theorem save_crash_atomic_in_rename : Nonempty (Codec UInt8 PersistentStateData) ∧
    ∀ codec : Codec UInt8 PersistentStateData, ∃ files : Files StatePath UInt8,
      files .file = some (codec.marshal ⟨2, "n2"⟩) ∧
      (load codec (run (saveProgram codec ⟨3, "n1"⟩) files [.done, .stops (.begun 0)]).1 =
          .ok ⟨2, "n2"⟩ ∨
        load codec (run (saveProgram codec ⟨3, "n1"⟩) files [.done, .stops (.begun 0)]).1 =
          .ok ⟨3, "n1"⟩) :=
  ⟨(exists_codec PersistentStateData).nonempty, fun codec =>
    ⟨fun _ => some (codec.marshal ⟨2, "n2"⟩), rfl,
      save_crash_atomic codec _ ⟨2, "n2"⟩ ⟨3, "n1"⟩ rfl _⟩⟩

theorem persist_refines_empty : Nonempty LogCodec ∧ ∀ codec : LogCodec,
    Safe (fun _ => none) (empty.persistProgram codec) (fun _ => True) fun files result =>
      ∃ outcome, Holds codec files (empty.persist outcome).1 ∧
        (empty.persist outcome).2.isNone = result.isNone :=
  ⟨exists_logCodec, fun _ => persist_refines ⟨rfl, rfl⟩⟩

theorem loadsAs_empty : LoadsAs codec (fun _ => none) empty :=
  ⟨empty, rfl, rfl, rfl, rfl⟩

/-- The first entry of a log. -/
def firstEntry : LogEntry := ⟨1, 1, "PUT", [], 0⟩

/-- A log of two entries. -/
def twoEntries : LogStorage := empty.appended [firstEntry, ⟨2, 1, "DELETE", [97], 5⟩]

/-- A truncation that removes none of two entries, and the machine stops between the files. -/
theorem persist_atomic_between_files : Nonempty LogCodec ∧ ∀ codec : LogCodec,
    let files := (run (twoEntries.persistProgram codec) (fun _ => none) [.done, .done, .done]).1
    let left := (run (StorageChange.program codec twoEntries (.truncateFrom 3)) files [.done]).1
    LoadsAs codec files twoEntries ∧ (LoadsAs codec left twoEntries ∨
      ∃ after ∈ StorageChange.after twoEntries (.truncateFrom 3), LoadsAs codec left after) := by
  refine ⟨exists_logCodec, fun codec => ?_⟩
  have hdisk := loadsAs_persist (loadsAs_empty codec) twoEntries [.done, .done, .done]
  refine ⟨hdisk, (persist_atomic_iff codec _ _ hdisk twoEntries (.truncateFrom 3) [.done]).mpr
    fun after hafter => ?_⟩
  obtain rfl : twoEntries.truncated 3 = after := some.inj hafter
  exact .inl ⟨rfl, rfl⟩

/-- The machine stops between the two files of the first append: last index 1 and no entry. -/
theorem persist_mixes_states : Nonempty LogCodec ∧ ∀ codec : LogCodec, ∃ found : LogStorage,
      loadFiles codec (run (StorageChange.program codec LogStorage.empty
        (.appendEntries [firstEntry])) (fun _ => none) [.done]).1 = .ok found ∧
      found.lastIndex = 1 ∧ found.entries = [] ∧ ¬LogStorage.SameFields found LogStorage.empty ∧
      ¬∃ after ∈ StorageChange.after LogStorage.empty (.appendEntries [firstEntry]),
        LogStorage.SameFields found after := by
  refine ⟨exists_logCodec, fun codec => ?_⟩
  obtain ⟨found, hload, hentries, hlast, -⟩ :=
    loadsAs_persist (loadsAs_empty codec) (empty.appended [firstEntry]) [.done]
  refine ⟨found, hload, hlast, hentries, fun hsame => ?_, ?_⟩
  · cases hlast.symm.trans hsame.2.1
  rintro ⟨after, hafter, hsame⟩
  obtain rfl : empty.appended [firstEntry] = after := some.inj hafter
  cases hentries.symm.trans hsame.1

end DistributedKV.Consensus
