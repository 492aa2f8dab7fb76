import DistributedKV.Lib.Lts
import DistributedKV.Security.Audit

/-!
# The size of audit files

`Write` (`audit.go:1057`) calls `rotate` when a line does not fit into the open file, and that opens
the file of the day (`generateFilename`). On the day of the open file that is the same file again,
full as it is, and the line that did not fit is written to it all the same.

## Main results

* `logs_bounded`: no file exceeds `MaxSize` if the file of each day has room for all lines of the
  day. A line of a later day may still go to the open file, but only while it fits there.
* `not_bounded`: two lines on one day that do not both fit.

The invariant (`Room`) speaks of the lines that are still to come, so that the induction of
`Room.forall_trace` is on these.
-/

namespace DistributedKV.Security.Audit

open Lts

/-- The directory of a `FileWriter`: which day's file is open, and how long each one is. -/
structure LogDir where
  fw : FileWriter
  day : Nat
  files : Nat → Nat

/-- An encoded event and the day on which it is written. -/
structure Line where
  today : Nat
  len : Nat

namespace LogDir

variable (dir : LogDir)

/-- `NewFileWriter`. -/
def newFileWriter (maxSize : Int) (files : Nat → Nat) (today : Nat) : LogDir :=
  ⟨⟨true, files today, maxSize⟩, today, files⟩

/-- What a `Write` without faults meets: `openFile` goes by the day. -/
def env (line : Line) : WriteEnv := ⟨line.len, dir.files line.today, none⟩

/-- `Write`, with what it does to the files. -/
def write (line : Line) : Option LogDir :=
  let day := if dir.fw.Rotates (dir.env line) then line.today else dir.day
  some ⟨(dir.fw.write (dir.env line)).1, day,
    Function.update dir.files day (dir.files day + line.len)⟩

/-- No file is over the limit. -/
def Bounded : Prop := ∀ day, (dir.files day : Int) ≤ dir.fw.maxSize

/-- What is written on a day. -/
def dayTotal (day : Nat) (lines : List Line) : Nat :=
  ((lines.filter (·.today = day)).map Line.len).sum

/-- The writer knows how long its file is. -/
def Synced : Prop := dir.fw.isOpen = true ∧ dir.fw.size = dir.files dir.day

variable {dir t : LogDir} {line : Line}

theorem write_fw (hopen : dir.fw.isOpen = true) : (dir.fw.write (dir.env line)).1 =
      { dir.fw with
        size := (if dir.fw.Rotates (dir.env line) then (dir.files line.today : Int)
          else dir.fw.size) + line.len } := by
  rw [FileWriter.write, if_neg (by simp [env])]
  split
  · simp [FileWriter.append, env, hopen]
  · simp [FileWriter.append, env, hopen]

theorem Synced.write (h : dir.Synced) (hstep : dir.write line = some t) : t.Synced := by
  cases hstep
  rw [Synced, write_fw h.1]
  refine ⟨h.1, ?_⟩
  dsimp only
  rw [Function.update_self, Nat.cast_add]
  split
  · rfl
  · rw [h.2]

theorem dayTotal_cons (day : Nat) (line : Line) (lines : List Line) :
    dayTotal day (line :: lines) =
      (if line.today = day then line.len else 0) + dayTotal day lines := by
  rw [dayTotal, List.filter_cons]
  split_ifs with h₁ h₂ h₂
  · rw [List.map_cons, List.sum_cons, dayTotal]
  · exact absurd (of_decide_eq_true h₁) h₂
  · exact absurd (decide_eq_true h₂) h₁
  · rw [Nat.zero_add, dayTotal]

theorem dayTotal_eq_zero {day : Nat} {lines : List Line} (h : ∀ line ∈ lines, line.today ≠ day) :
    dayTotal day lines = 0 := by
  rw [dayTotal, List.filter_eq_nil_iff.mpr fun line hline => by simpa using h line hline]
  rfl

/-- The file of every day has room for the lines of the day that are still to come, and none of
these comes before the day of the open file. -/
structure Room (dir : LogDir) (lines : List Line) : Prop where
  synced : dir.Synced
  room : ∀ day, (dir.files day : Int) + dayTotal day lines ≤ dir.fw.maxSize
  days : ∀ line ∈ lines, dir.day ≤ line.today

theorem Room.bounded {lines : List Line} (h : dir.Room lines) : dir.Bounded := by
  intro day
  have := h.room day
  omega

/-- One line: it goes to the open file if there is room, or else to that of its day. -/
theorem Room.write {lines : List Line} (h : dir.Room (line :: lines))
    (hdays : ∀ other ∈ lines, line.today ≤ other.today) (hstep : dir.write line = some t) :
    t.Room lines := by
  have hsynced := h.synced.write hstep
  cases hstep
  have hday := h.days line List.mem_cons_self
  refine ⟨hsynced, fun day => ?_, fun other hother => ?_⟩
  · have hroom := h.room day
    rw [dayTotal_cons] at hroom
    rw [write_fw h.synced.1]
    dsimp only
    rw [Function.update_apply]
    split_ifs with hrotates hsame hsame
    · subst hsame
      rw [if_pos rfl] at hroom
      push_cast at hroom ⊢
      omega
    · push_cast at hroom
      omega
    · subst hsame
      have hfits := not_lt.mp hrotates
      rw [h.synced.2] at hfits
      rcases hday.eq_or_lt with heq | hlt
      · rw [if_pos heq.symm] at hroom
        push_cast at hroom ⊢
        omega
      · -- a line of a later day: no line of the open file's day is left
        rw [dayTotal_eq_zero fun other hother => (hlt.trans_le (hdays other hother)).ne']
        simpa [env] using hfits
    · push_cast at hroom
      omega
  · dsimp only
    split_ifs
    · exact hdays other hother
    · exact hday.trans (hdays other hother)

/-- All lines. The induction is on those that are left. -/
theorem Room.forall_trace {lines : List Line} (h : dir.Room lines)
    (hdays : (lines.map Line.today).Pairwise (· ≤ ·)) :
    ∀ t ∈ trace LogDir.write dir lines, t.Bounded := by
  induction lines generalizing dir with
  | nil => simpa [trace] using h.bounded
  | cons line lines ih =>
    obtain ⟨hfirst, hrest⟩ := List.pairwise_cons.mp hdays
    have hnext := h.write (by simpa using hfirst) rfl
    exact List.forall_mem_cons.mpr ⟨h.bounded, ih hnext hrest⟩

/-- **When audit files stay within their limit**: if the file of each day has room for all that is
written on the day. The days of the lines do not go back. -/
theorem logs_bounded (maxSize : Int) (files : Nat → Nat) (today : Nat) (lines : List Line)
    (hdays : (today :: lines.map Line.today).Pairwise (· ≤ ·))
    (hroom : ∀ day, (files day : Int) + dayTotal day lines ≤ maxSize) :
    ∀ t ∈ trace write (newFileWriter maxSize files today) lines, t.Bounded := by
  obtain ⟨hfirst, hrest⟩ := List.pairwise_cons.mp hdays
  have hstart : (newFileWriter maxSize files today).Room lines :=
    ⟨⟨rfl, rfl⟩, hroom, fun line hline => hfirst _ (List.mem_map_of_mem hline)⟩
  exact hstart.forall_trace hrest

/-- An empty directory. -/
def noFiles : Nat → Nat := fun _ => 0

/-- Three lines on two days. -/
def twoDays : List Line := [⟨0, 289⟩, ⟨0, 301⟩, ⟨1, 577⟩]

theorem bounded_two_days : (∀ line ∈ twoDays, line.len ≤ 600) ∧
    ∀ t ∈ trace write (newFileWriter 600 noFiles 0) twoDays, t.Bounded := by
  refine ⟨by decide, logs_bounded 600 noFiles 0 twoDays (by decide) fun day => ?_⟩
  rcases day with _ | _ | day <;> simp [twoDays, dayTotal, noFiles]

/-- Two lines of 289 bytes, the length of the shortest event, on one day: the file is opened again
and gets 578 bytes. -/
theorem not_bounded :
    let lines : List Line := [⟨0, 289⟩, ⟨0, 289⟩]
    (∀ line ∈ lines, line.len ≤ 577) ∧
      ∃ t ∈ trace write (newFileWriter 577 noFiles 0) lines, ¬t.Bounded := by
  refine ⟨by decide, _, List.mem_cons_of_mem _ (List.mem_cons_of_mem _ List.mem_cons_self), ?_⟩
  exact fun h => absurd (h 0) (by decide)

end LogDir

end DistributedKV.Security.Audit
