import DistributedKV.Lib.Consecutive
import DistributedKV.Lib.Lts
import DistributedKV.Consensus.Persistence

/-!
# The window of the log that is kept (`log_storage.go`)

`LogStorage` keeps the entries behind a compaction point. `TruncateFrom` cuts the end off,
`Compact` the beginning, `InstallSnapshot` replaces everything and `GetEntries` reads a range, all
by loops that filter by index. For every sequence of calls that appends the next indexes:

1. The entries are numbered from `compactTo + 1` on and end at `lastIndex` (`Contiguous`).
   `Compact` does not look at `lastIndex`, so a compaction beyond the end breaks this, and
   nothing else does.
2. The entries are a window of the log without any compaction (`History`), and a read that is not
   refused returns the part it was asked for, unless it starts at the compaction point itself:
   `GetEntries` lets that index pass although its entry is gone.
3. `LogCompactor` keeps the newest entries, unless the last index less the retention size wraps
   around.
-/

namespace DistributedKV.Consensus

open Lib Lts List LogStorage Option

/-! ## The methods -/

/-- The errors of `GetEntries` and of the methods that change the log. -/
inductive LogError where
  /-- "requested entries before compaction point" -/
  | readCompacted
  /-- "cannot truncate before compaction point" -/
  | truncateCompacted
  | persist (err : PersistError)

/-- `LogSnapshot`. `InstallSnapshot` reads `lastIndex` and `compactTo` only. -/
structure LogSnapshot where
  lastIndex : Int
  lastTerm : Int
  compactTo : Int
  entryCount : Int

namespace LogStorage

variable (ls : LogStorage)

/-- What `AppendEntries` makes of the fields before it persists them. -/
def appended (entries : List LogEntry) : LogStorage :=
  { ls with
    entries := ls.entries ++ entries
    lastIndex := (entries.getLast?.map LogEntry.index).getD ls.lastIndex }

/-- `TruncateFrom`: without entries the last index falls back to the compaction point. -/
def truncated (index : Int) : LogStorage :=
  let entries := ls.entries.filter fun e => e.index < index
  { ls with
    entries := entries
    lastIndex := (entries.getLast?.map LogEntry.index).getD ls.compactTo }

/-- What `Compact` makes of the fields. The last index stays. -/
def compacted (upToIndex : Int) : LogStorage :=
  { ls with
    entries := ls.entries.filter fun e => e.index > upToIndex
    compactTo := upToIndex }

/-- What `InstallSnapshot` makes of the fields. -/
def installed (snapshot : LogSnapshot) (entries : List LogEntry) : LogStorage :=
  { ls with
    entries := entries
    lastIndex := snapshot.lastIndex
    compactTo := snapshot.compactTo }

/-- `persist` as the last call of a method. -/
def persisted (outcome : PersistOutcome) : LogStorage × Option LogError :=
  ((ls.persist outcome).1, (ls.persist outcome).2.map .persist)

/-- `LogStorage.TruncateFrom`. -/
def truncateFrom (outcome : PersistOutcome) (index : Int) :
    LogStorage × Option LogError :=
  if index ≤ ls.compactTo then (ls, some .truncateCompacted)
  else (ls.truncated index).persisted outcome

/-- `LogStorage.Compact`. -/
def compact (outcome : PersistOutcome) (upToIndex : Int) :
    LogStorage × Option LogError :=
  if upToIndex ≤ ls.compactTo then (ls, none)  -- already compacted
  else (ls.compacted upToIndex).persisted outcome

/-- `LogStorage.InstallSnapshot`. -/
def installSnapshot (outcome : PersistOutcome) (snapshot : LogSnapshot)
    (entries : List LogEntry) : LogStorage × Option LogError :=
  (ls.installed snapshot entries).persisted outcome

/-- `LogStorage.GetEntries`: the entries from `startIndex` to `endIndex`, both included. -/
def getEntries (startIndex endIndex : Int) : Except LogError (List LogEntry) :=
  if startIndex < ls.compactTo then .error .readCompacted
  else .ok (ls.entries.filter fun e => e.index ≥ startIndex ∧ e.index ≤ endIndex)

/-! ## The fields and the files -/

/-- Two storages with the same fields in memory. -/
def SameFields (ls ls' : LogStorage) : Prop :=
  ls.entries = ls'.entries ∧ ls.lastIndex = ls'.lastIndex ∧ ls.compactTo = ls'.compactTo

theorem sameFields_persist (outcome : PersistOutcome) :
    SameFields (ls.persist outcome).1 ls := by
  cases outcome <;> exact ⟨rfl, rfl, rfl⟩

end LogStorage

/-! ## Sequences of calls -/

/-- The calls a `LogStorage` gets; `outcome` is how the writes of the call end. -/
inductive StorageCall where
  | appendEntries (entries : List LogEntry) (outcome : PersistOutcome)
  | truncateFrom (index : Int) (outcome : PersistOutcome)
  | compact (upToIndex : Int) (outcome : PersistOutcome)
  | getEntries (startIndex endIndex : Int)

/-- One call. Entries get the indexes that come next; every other argument is free. -/
def LogStorage.step (ls : LogStorage) : StorageCall → Option LogStorage
  | .appendEntries entries outcome =>
    if Consecutive LogEntry.index ls.lastIndex entries then
      some (ls.appendEntries outcome entries).1
    else none
  | .truncateFrom index outcome => some (ls.truncateFrom outcome index).1
  | .compact upToIndex outcome => some (ls.compact outcome upToIndex).1
  | .getEntries _ _ => some ls

/-- A new log in an empty directory. -/
def LogStorage.empty : LogStorage := loadLog none none

/-! ## The fields agree -/

/-- The entries are numbered from `compactTo + 1` on, and `lastIndex` is where they end. -/
structure Contiguous (ls : LogStorage) : Prop where
  numbered : Consecutive LogEntry.index ls.compactTo ls.entries
  last : ls.lastIndex = ls.compactTo + ls.entries.length

instance (ls : LogStorage) : Decidable (Contiguous ls) :=
  decidable_of_iff (Consecutive LogEntry.index ls.compactTo ls.entries ∧
    ls.lastIndex = ls.compactTo + ls.entries.length) ⟨fun h => ⟨h.1, h.2⟩, fun h => ⟨h.1, h.2⟩⟩

open LogStorage

theorem contiguous_empty : Contiguous empty where
  numbered := trivial
  last := rfl

variable {ls : LogStorage} {call : StorageCall}

theorem Contiguous.of_sameFields {ls' : LogStorage} (h : Contiguous ls)
    (hsame : LogStorage.SameFields ls' ls) : Contiguous ls' := by
  obtain ⟨he, hl, hc⟩ := hsame
  exact ⟨by rw [he, hc]; exact h.numbered, by rw [he, hl, hc]; exact h.last⟩

theorem Contiguous.compactTo_le (h : Contiguous ls) : ls.compactTo ≤ ls.lastIndex := by
  have := h.last
  omega

open LogEntry

/-- The last index a filtering loop computes from what it kept. -/
theorem lastIndex_of_consecutive {n m : Int} {l : List LogEntry}
    (h : Consecutive index n l) (hm : l = [] → m = n) :
    (l.getLast?.map index).getD m = n + l.length := by
  cases hlast : l.getLast? with
  | none =>
    obtain rfl := getLast?_eq_none_iff.mp hlast
    show m = n + 0
    rw [hm rfl, add_zero]
  | some e => exact h.getLast? hlast

section Methods

variable {ls : LogStorage} (h : Contiguous ls)
include h

theorem Contiguous.appended {entries : List LogEntry}
    (hnext : Consecutive index ls.lastIndex entries) : Contiguous (ls.appended entries) where
  numbered := consecutive_append.mpr ⟨h.numbered, h.last ▸ hnext⟩
  last := by
    show (entries.getLast?.map index).getD ls.lastIndex =
      ls.compactTo + ((ls.entries ++ entries).length : Nat)
    rw [lastIndex_of_consecutive hnext fun _ => rfl, h.last, length_append]
    omega

/-- `TruncateFrom` keeps a first part, whichever index it is given. -/
theorem Contiguous.truncated (index : Int) : Contiguous (ls.truncated index) where
  numbered := by
    show Consecutive _ _ (ls.entries.filter _)
    rw [h.numbered.filter_lt]
    exact h.numbered.take _
  last := by
    refine lastIndex_of_consecutive ?_ fun _ => rfl
    rw [h.numbered.filter_lt]
    exact h.numbered.take _

theorem Contiguous.compacted {upToIndex : Int} (hlow : ls.compactTo ≤ upToIndex)
    (hhigh : upToIndex ≤ ls.lastIndex) : Contiguous (ls.compacted upToIndex) := by
  have hlast := h.last
  obtain ⟨k, hk⟩ : ∃ k : Nat, upToIndex = ls.compactTo + k :=
    ⟨(upToIndex - ls.compactTo).toNat, by omega⟩
  have hkeep : (ls.entries.filter fun e => e.index > upToIndex) = ls.entries.drop k := by
    rw [h.numbered.filter_gt, hk, add_sub_cancel_left, Int.toNat_natCast]
  constructor
  · show Consecutive _ upToIndex (ls.entries.filter _)
    rw [hkeep, hk]
    exact h.numbered.drop (by omega)
  show ls.lastIndex = upToIndex + ((ls.entries.filter _).length : Nat)
  rw [hkeep, length_drop]
  omega

end Methods

/-- A compaction does not go beyond the end of the log. -/
def CompactsWithin (ls : LogStorage) : StorageCall → Prop
  | .compact upToIndex _ => upToIndex ≤ ls.lastIndex
  | _ => True

instance (ls : LogStorage) (call : StorageCall) : Decidable (CompactsWithin ls call) := by
  cases call <;> unfold CompactsWithin <;> infer_instance

theorem Contiguous.step {t : LogStorage} (h : Contiguous ls) (hok : CompactsWithin ls call)
    (hstep : ls.step call = some t) : Contiguous t := by
  cases call with
  | appendEntries entries outcome =>
    simp only [step, ite_none_right_eq_some, some.injEq] at hstep
    obtain ⟨hnext, rfl⟩ := hstep
    exact (h.appended hnext).of_sameFields (sameFields_persist _ outcome)
  | truncateFrom index outcome =>
    cases hstep
    unfold truncateFrom
    split
    · exact h
    · exact (h.truncated index).of_sameFields (sameFields_persist _ outcome)
  | compact upToIndex outcome =>
    cases hstep
    unfold compact
    split
    · exact h
    · next hlow =>
      exact (h.compacted (by omega) hok).of_sameFields (sameFields_persist _ outcome)
  | getEntries startIndex endIndex =>
    cases hstep
    exact h

/-- A compaction beyond the end always breaks the agreement. -/
theorem Contiguous.breaks (h : Contiguous ls) (hok : ¬CompactsWithin ls call) :
    ∃ t, ls.step call = some t ∧ ¬Contiguous t := by
  cases call with
  | compact upToIndex outcome =>
    have hhigh : ls.lastIndex < upToIndex := not_le.mp hok
    have hlow : ¬upToIndex ≤ ls.compactTo := by
      have := h.compactTo_le
      omega
    refine ⟨_, rfl, ?_⟩
    rw [compact, if_neg hlow]
    intro hbroken
    obtain ⟨he, hl, hc⟩ := sameFields_persist (ls.compacted upToIndex) outcome
    -- nothing is kept beyond the end, and the last index is left behind
    have hle : upToIndex ≤ ls.lastIndex :=
      (hbroken.of_sameFields ⟨he.symm, hl.symm, hc.symm⟩).compactTo_le
    omega
  | _ => exact absurd trivial hok

/-- **When the fields agree.** Over every sequence of calls the entries are numbered from
`compactTo + 1` on up to `lastIndex` exactly as long as no compaction goes beyond the end of the
log. -/
theorem contiguous_iff_compactsWithin (calls : List StorageCall) :
    (∀ ls ∈ trace LogStorage.step LogStorage.empty calls, Contiguous ls) ↔
      Along LogStorage.step CompactsWithin LogStorage.empty calls :=
  have hinv : ∀ (ls : LogStorage) (call : StorageCall) (t : LogStorage), True →
      ls.step call = some t → True := fun _ _ _ _ _ => trivial
  forall_trace_iff_along hinv (fun _ _ _ _ h hok hstep => h.step hok hstep)
    (fun _ _ _ h hok => h.breaks hok) calls empty trivial contiguous_empty

/-- Two entries and a compaction up to index 5 leave `lastIndex = 2` behind
`compactTo = 5`. -/
theorem compact_beyond_end_breaks : ¬∀ ls ∈ trace LogStorage.step LogStorage.empty
        [.appendEntries [⟨1, 1, "PUT", [], 0⟩, ⟨2, 1, "PUT", [], 0⟩] .written,
          .compact 5 .written], Contiguous ls := by
  decide +kernel

/-! ## The log without compaction -/

/-- A storage with the log its calls would have left without compactions. -/
structure History where
  storage : LogStorage
  log : List LogEntry

/-- The log after a call; a refused truncation changes nothing. -/
def History.logAfter (h : History) : StorageCall → List LogEntry
  | .appendEntries entries _ => h.log ++ entries
  | .truncateFrom index _ =>
    if index ≤ h.storage.compactTo then h.log else h.log.filter fun e => e.index < index
  | .compact _ _ => h.log
  | .getEntries _ _ => h.log

def History.step (h : History) (call : StorageCall) : Option History :=
  (h.storage.step call).map fun ls => ⟨ls, h.logAfter call⟩

def History.empty : History := ⟨LogStorage.empty, []⟩

/-- The condition of `CompactsWithin` on a run with its log. -/
def History.CompactsWithin (h : History) (call : StorageCall) : Prop :=
  Consensus.CompactsWithin h.storage call

instance (h : History) (call : StorageCall) : Decidable (h.CompactsWithin call) :=
  inferInstanceAs (Decidable (Consensus.CompactsWithin h.storage call))

/-- **The storage is a window of the log**, which is numbered from 1 on. -/
structure Window (h : History) : Prop where
  numbered : Consecutive LogEntry.index 0 h.log
  low : 0 ≤ h.storage.compactTo
  high : h.storage.compactTo ≤ h.log.length
  entries : h.storage.entries = h.log.drop h.storage.compactTo.toNat
  last : h.storage.lastIndex = h.log.length

theorem window_empty : Window History.empty where
  numbered := trivial
  low := le_refl _
  high := le_refl _
  entries := rfl
  last := rfl

theorem Window.contiguous {h : History} (hw : Window h) : Contiguous h.storage where
  numbered := by
    have hnat : (h.storage.compactTo.toNat : Int) = h.storage.compactTo :=
      Int.toNat_of_nonneg hw.low
    have hdrop := hw.numbered.drop (k := h.storage.compactTo.toNat) (by have := hw.high; omega)
    rwa [zero_add, hnat, ← hw.entries] at hdrop
  last := by
    have hlow := hw.low
    have hhigh := hw.high
    rw [hw.last, hw.entries, length_drop]
    omega

/-- A call that leaves the fields of `ls` and the log `log` keeps the window, whatever its
files. -/
theorem Window.of_sameFields {ls' : LogStorage} {log : List LogEntry} (hw : Window ⟨ls, log⟩)
    (hsame : LogStorage.SameFields ls' ls) : Window ⟨ls', log⟩ := by
  obtain ⟨he, hl, hc⟩ := hsame
  constructor
  · exact hw.numbered
  · rw [hc]
    exact hw.low
  · rw [hc]
    exact hw.high
  · rw [he, hc]
    exact hw.entries
  · rw [hl]
    exact hw.last

section Methods

variable {ls : LogStorage} {log : List LogEntry} (hw : Window ⟨ls, log⟩)
include hw

theorem Window.appended {entries : List LogEntry} (hnext : Consecutive index ls.lastIndex entries) :
    Window ⟨ls.appended entries, log ++ entries⟩ := by
  have hlast : ls.lastIndex = log.length := hw.last
  have hhigh : ls.compactTo ≤ log.length := hw.high
  constructor
  · exact consecutive_append.mpr ⟨hw.numbered, by rwa [zero_add, ← hlast]⟩
  · exact hw.low
  · show ls.compactTo ≤ ((log ++ entries).length : Nat)
    rw [length_append]
    omega
  · show ls.entries ++ entries = (log ++ entries).drop ls.compactTo.toNat
    rw [drop_append_of_le_length (by omega), hw.entries]
  show (entries.getLast?.map index).getD ls.lastIndex = _
  rw [lastIndex_of_consecutive hnext fun _ => rfl, hlast, length_append]
  omega

theorem Window.truncated {index : Int} (hindex : ls.compactTo < index) :
    Window ⟨ls.truncated index, log.filter fun e => e.index < index⟩ := by
  have hlow : 0 ≤ ls.compactTo := hw.low
  have hhigh : ls.compactTo ≤ log.length := hw.high
  have hentries : (ls.entries.filter fun e => e.index < index) =
      (log.take (index - 1).toNat).drop ls.compactTo.toNat := by
    have hsub : (index - ls.compactTo - 1).toNat = (index - 1).toNat - ls.compactTo.toNat := by
      omega
    rw [hw.contiguous.numbered.filter_lt, hw.entries, drop_take, hsub]
  have htake : (log.filter fun e => e.index < index) = log.take (index - 1).toNat := by
    rw [hw.numbered.filter_lt, sub_zero]
  rw [htake]
  constructor
  · exact hw.numbered.take _
  · exact hlow
  · show ls.compactTo ≤ ((log.take _).length : Nat)
    rw [length_take]
    omega
  · exact hentries
  rw [(hw.contiguous.truncated index).last]
  show ls.compactTo + ((ls.entries.filter _).length : Nat) = ((log.take _).length : Nat)
  rw [hentries, length_drop, length_take]
  omega

theorem Window.compacted {upToIndex : Int} (hlow : ls.compactTo < upToIndex)
    (hhigh : upToIndex ≤ ls.lastIndex) : Window ⟨ls.compacted upToIndex, log⟩ := by
  have hzero : 0 ≤ ls.compactTo := hw.low
  have hlast : ls.lastIndex = log.length := hw.last
  constructor
  · exact hw.numbered
  · show 0 ≤ upToIndex
    omega
  · show upToIndex ≤ log.length
    omega
  · show ls.entries.filter _ = log.drop upToIndex.toNat
    have hsum : ls.compactTo.toNat + (upToIndex - ls.compactTo).toNat = upToIndex.toNat := by omega
    rw [hw.contiguous.numbered.filter_gt, hw.entries, drop_drop, hsum]
  · exact hlast

end Methods

theorem Window.step {h t : History} (hw : Window h) (hok : h.CompactsWithin call)
    (hstep : h.step call = some t) : Window t := by
  obtain ⟨ls, log⟩ := h
  obtain ⟨ls', hls, rfl⟩ := map_eq_some_iff.mp hstep
  cases call with
  | appendEntries entries outcome =>
    simp only [step, ite_none_right_eq_some, some.injEq] at hls
    obtain ⟨hnext, rfl⟩ := hls
    exact (hw.appended hnext).of_sameFields (sameFields_persist _ outcome)
  | truncateFrom index outcome =>
    cases hls
    by_cases hrefused : index ≤ ls.compactTo
    · simpa only [truncateFrom, History.logAfter, if_pos hrefused] using hw
    · simp only [truncateFrom, History.logAfter, if_neg hrefused]
      exact (hw.truncated (not_le.mp hrefused)).of_sameFields (sameFields_persist _ outcome)
  | compact upToIndex outcome =>
    cases hls
    by_cases hdone : upToIndex ≤ ls.compactTo
    · simpa only [compact, History.logAfter, if_pos hdone] using hw
    · simp only [compact, History.logAfter, if_neg hdone]
      exact (hw.compacted (not_le.mp hdone) hok).of_sameFields (sameFields_persist _ outcome)
  | getEntries startIndex endIndex =>
    cases hls
    exact hw

/-! ## Reads -/

/-- A read from `s` to `e` of a log that ends at `last`: the entries in that range, in order. -/
structure ReadsExactly (log : List LogEntry) (s e last : Int) (result : List LogEntry) :
    Prop where
  entries : result = log.filter fun x => x.index ≥ s ∧ x.index ≤ min e last
  numbered : Consecutive LogEntry.index (s - 1) result
  count : result.length = (min e last - s + 1).toNat

section Reads

variable {h : History} (hw : Window h) {s e : Int}
include hw

theorem Window.range_eq :
    (h.log.filter fun x => x.index ≥ s ∧ x.index ≤ min e h.storage.lastIndex) =
      (h.log.take e.toNat).drop (s - 1).toNat := by
  have hlast := hw.last
  rw [hw.numbered.filter_between, sub_zero, sub_zero]
  rcases le_total e h.storage.lastIndex with hle | hle
  · rw [min_eq_left hle]
  · rw [min_eq_right hle, take_of_length_le (by omega), take_of_length_le (by omega)]

theorem Window.collected_eq : (h.storage.entries.filter fun x => x.index ≥ s ∧ x.index ≤ e) =
      (h.log.take e.toNat).drop (h.storage.compactTo.toNat +
        (s - 1 - h.storage.compactTo).toNat) := by
  have hlow := hw.low
  have hsub : (e - h.storage.compactTo).toNat = e.toNat - h.storage.compactTo.toNat := by omega
  rw [hw.contiguous.numbered.filter_between, hw.entries, hsub, ← drop_take, drop_drop]

/-- **Behind the compaction point** a read returns what it was asked for. -/
theorem Window.readsExactly (hs : h.storage.compactTo < s) (hse : s ≤ e) :
    ReadsExactly h.log s e h.storage.lastIndex
      (h.storage.entries.filter fun x => x.index ≥ s ∧ x.index ≤ e) := by
  have hlow := hw.low
  have hlast := hw.last
  have hstart : h.storage.compactTo.toNat + (s - 1 - h.storage.compactTo).toNat =
      (s - 1).toNat := by omega
  rw [hw.collected_eq, hstart]
  refine ⟨hw.range_eq.symm, ?_, ?_⟩
  · by_cases hle : (s - 1).toNat ≤ (h.log.take e.toNat).length
    · have hdrop := (hw.numbered.take e.toNat).drop hle
      rwa [zero_add, Int.toNat_of_nonneg (by omega)] at hdrop
    · rw [drop_eq_nil_of_le (by omega)]
      trivial
  · rw [length_drop, length_take]
    omega

end Reads

/-- **When a read has no silent gap.** In every state that appends, truncations and compactions
within the log lead to, a read that is not refused returns exactly the entries of its range,
unless it starts at the compaction point. -/
theorem getEntries_exact_iff (calls : List StorageCall) (h : History)
    (hok : Along History.step History.CompactsWithin History.empty calls)
    (hrun : exec History.step History.empty calls = some h) (s e : Int) (hs : 1 ≤ s) (hse : s ≤ e) :
    (∀ result, h.storage.getEntries s e = .ok result →
      ReadsExactly h.log s e h.storage.lastIndex result) ↔ s ≠ h.storage.compactTo := by
  have hw : Window h := trace_induction (P := fun _ h => Window h) window_empty
    (fun _ _ _ _ _ _ hw hok hstep => hw.step hok hstep) calls h hok hrun
  constructor
  · intro hexact heq
    -- at the compaction point a read is one entry short
    have hcount := (hexact _ (if_neg (by omega))).count
    have hhigh := hw.high
    have hlast := hw.last
    rw [hw.collected_eq, length_drop, length_take] at hcount
    omega
  intro hne result hresult
  unfold getEntries at hresult
  split at hresult
  · cases hresult
  next hstart =>
    cases hresult
    exact hw.readsExactly (by omega) hse

/-- Two entries of which the first is compacted away. -/
def compactedAtOne : List StorageCall :=
  [.appendEntries [⟨1, 1, "PUT", [], 0⟩, ⟨2, 1, "PUT", [], 0⟩] .written, .compact 1 .written]

theorem getEntries_exact_behind_compaction_point :
    ∃ h : History, exec History.step History.empty compactedAtOne = some h ∧
      ∀ result, h.storage.getEntries 2 9 = .ok result →
        ReadsExactly h.log 2 9 h.storage.lastIndex result :=
  ⟨_, rfl, (getEntries_exact_iff compactedAtOne _ (by decide +kernel) rfl 2 9 (by decide)
    (by decide)).mpr (by decide +kernel)⟩

/-- A read of the indexes 1 and 2 returns the entry of index 2 alone and no error. -/
theorem getEntries_gap_at_compaction_point :
    ∃ h : History, exec History.step History.empty compactedAtOne = some h ∧
      h.storage.getEntries 1 2 = .ok [⟨2, 1, "PUT", [], 0⟩] ∧
      ¬ReadsExactly h.log 1 2 h.storage.lastIndex [⟨2, 1, "PUT", [], 0⟩] :=
  ⟨_, rfl, rfl, fun hread => absurd hread.count (by decide +kernel)⟩

/-! ## The compactor -/

/-- `LogStats`, without the size of the file. -/
structure LogStats where
  entryCount : Int
  firstIndex : Int
  lastIndex : Int
  compactedUpTo : Int

/-- `LogStorage.GetStats`. -/
def LogStorage.getStats (ls : LogStorage) : LogStats :=
  ⟨ls.entries.length, ls.compactTo + 1, ls.lastIndex, ls.compactTo⟩

/-- `LogCompactor`. -/
structure LogCompactor where
  storage : LogStorage
  compactionTrigger : Int
  retentionSize : Int

namespace LogCompactor

/-- `NewLogCompactor`. -/
def newLogCompactor (storage : LogStorage) : LogCompactor := ⟨storage, 1000, 100⟩

/-- `ShouldCompact`. -/
def shouldCompact (lc : LogCompactor) : Bool :=
  lc.storage.getStats.entryCount ≥ lc.compactionTrigger

/-- `maxCompactIndex`: the difference of two `int64`, which wraps around. -/
def maxCompactIndex (lc : LogCompactor) : Int :=
  (lc.storage.getStats.lastIndex - lc.retentionSize).bmod (2 ^ 64)

/-- `LogCompactor.Compact`. -/
def compact (lc : LogCompactor) (outcome : PersistOutcome) (upToIndex : Int) :
    LogStorage × Option LogError :=
  let upToIndex := if upToIndex > lc.maxCompactIndex then lc.maxCompactIndex else upToIndex
  if upToIndex ≤ 0 then (lc.storage, none)  -- nothing to compact
  else lc.storage.compact outcome upToIndex

/-- The storage holds `int64` values. -/
structure InInt64 (lc : LogCompactor) : Prop where
  last : -2 ^ 63 ≤ lc.storage.lastIndex ∧ lc.storage.lastIndex < 2 ^ 63
  retention : lc.retentionSize < 2 ^ 63

/-- **What a compaction up to an index leaves**: every later entry, the newest ones up to the
retention size, and a storage whose fields agree, with the compaction point no further back and not
behind the last index. -/
structure Retains (lc : LogCompactor) (upToIndex : Int) (ls : LogStorage) : Prop where
  later : ∀ e ∈ lc.storage.entries, e.index > upToIndex → e ∈ ls.entries
  newest : lc.storage.entries.drop (lc.storage.entries.length -
    min lc.retentionSize.toNat lc.storage.entries.length) <:+ ls.entries
  forward : lc.storage.compactTo ≤ ls.compactTo
  within : ls.compactTo ≤ ls.lastIndex
  contiguous : Contiguous ls

variable {lc : LogCompactor} {upToIndex : Int}

theorem retains_of_sameFields {ls ls' : LogStorage} (h : Retains lc upToIndex ls)
    (hsame : SameFields ls' ls) : Retains lc upToIndex ls' := by
  obtain ⟨he, hl, hc⟩ := hsame
  exact ⟨by rw [he]; exact h.later, by rw [he]; exact h.newest, by rw [hc]; exact h.forward,
    by rw [hc, hl]; exact h.within, h.contiguous.of_sameFields ⟨he, hl, hc⟩⟩

theorem retains_self (h : Contiguous lc.storage) : Retains lc upToIndex lc.storage where
  later := fun _ he _ => he
  newest := drop_suffix _ _
  forward := le_refl _
  within := h.compactTo_le
  contiguous := h

theorem retains_compacted (h : Contiguous lc.storage) {n : Int} (hlow : lc.storage.compactTo ≤ n)
    (hn : n ≤ upToIndex) (hkeep : n ≤ lc.storage.lastIndex - lc.retentionSize)
    (hsize : 0 ≤ lc.retentionSize) : Retains lc upToIndex (lc.storage.compacted n) where
  later := fun e he hlt => mem_filter.mpr ⟨he, decide_eq_true (by omega)⟩
  newest := by
    have hlast := h.last
    show _ <:+ lc.storage.entries.filter _
    rw [h.numbered.filter_gt]
    -- the cut is before the newest entries
    obtain ⟨k, hk⟩ : ∃ k,
        lc.storage.entries.length - min lc.retentionSize.toNat lc.storage.entries.length =
          (n - lc.storage.compactTo).toNat + k :=
      ⟨_, (Nat.add_sub_cancel' (by omega)).symm⟩
    rw [hk, ← drop_drop]
    exact drop_suffix _ _
  forward := hlow
  within := by show n ≤ lc.storage.lastIndex; omega
  contiguous := h.compacted hlow (by omega)

/-- **When the compactor keeps what it should.** For every storage whose entries are numbered from
`compactTo + 1` to `lastIndex`, unless the subtraction wraps around: then the clamp is beyond the
end of the log, and every positive index compacts all of it. -/
theorem compact_retains_iff (lc : LogCompactor) (outcome : PersistOutcome) (upToIndex : Int)
    (h : Contiguous lc.storage) (hint : lc.InInt64) (hsize : 0 ≤ lc.retentionSize) :
    Retains lc upToIndex (lc.compact outcome upToIndex).1 ↔
      -2 ^ 63 ≤ lc.storage.lastIndex - lc.retentionSize ∨ upToIndex ≤ 0 := by
  obtain ⟨⟨hlow, hhigh⟩, hret⟩ := hint
  have hle := h.compactTo_le
  have hmax : lc.maxCompactIndex = if -2 ^ 63 ≤ lc.storage.lastIndex - lc.retentionSize then
      lc.storage.lastIndex - lc.retentionSize
    else lc.storage.lastIndex - lc.retentionSize + 2 ^ 64 := by
    show (lc.storage.lastIndex - lc.retentionSize).bmod (2 ^ 64) = _
    rw [Int.bmod_def]
    split <;> split <;> omega
  rw [compact]
  generalize hn : (if upToIndex > lc.maxCompactIndex then lc.maxCompactIndex else upToIndex) = n
  have hclamp : n ≤ upToIndex ∧ n ≤ lc.maxCompactIndex ∧
      (n = upToIndex ∨ n = lc.maxCompactIndex) := by
    split at hn <;> omega
  constructor
  · intro hkept
    by_contra! hwraps
    rw [hmax, if_neg (by omega)] at hclamp
    rw [if_neg (by omega), LogStorage.compact, if_neg (by omega)] at hkept
    obtain ⟨-, hl, hc⟩ := sameFields_persist (lc.storage.compacted n) outcome
    have hwithin := hkept.within
    rw [persisted, hl, hc] at hwithin
    have : n ≤ lc.storage.lastIndex := hwithin
    omega
  · intro hok
    split
    · exact retains_self h
    rw [LogStorage.compact]
    split
    · exact retains_self h
    refine retains_of_sameFields ?_ (sameFields_persist _ outcome)
    rw [hmax] at hclamp
    refine retains_compacted h (by omega) hclamp.1 ?_ hsize
    split at hclamp <;> omega

/-- `n` entries behind a compaction point, with the usual retention size. -/
def compactorAt (compactTo : Int) (n : Nat) : LogCompactor :=
  .newLogCompactor { LogStorage.empty with
    entries := (range n).map fun k => ⟨compactTo + 1 + k, 1, "PUT", [], 0⟩
    lastIndex := compactTo + n
    compactTo := compactTo }

theorem compact_retains_short :
    Retains (compactorAt 0 3) 2 ((compactorAt 0 3).compact .written 2).1 :=
  (compact_retains_iff _ _ _ (by decide) ⟨by decide, by decide⟩ (by decide)).mpr (.inl (by decide))

/-- A snapshot has set the smallest index: the clamp wraps around to `2 ^ 63 - 99`. -/
theorem compact_not_retains : Contiguous (compactorAt (-2 ^ 63) 1).storage ∧
    ¬Retains (compactorAt (-2 ^ 63) 1) 1 ((compactorAt (-2 ^ 63) 1).compact .written 1).1 :=
  ⟨by decide, fun h => absurd h.within (by decide)⟩

end LogCompactor

end DistributedKV.Consensus
