import Mathlib.Data.List.Nodup
import DistributedKV.Lib.Lts
import DistributedKV.Security.Audit

/-!
# What becomes of accepted audit events

An accepted event should reach every writer once and in order, at the latest by the flush with
which the background goroutine ends. `Stop` closes the file before that flush, so the events still
in the buffer are lost to it unless the next of them makes it open a new file. Nothing is written
twice, and before `Stop`, if no write fails, no event is lost.
-/

namespace DistributedKV.Security.Audit

open AuditLogger List Option Writer

namespace AuditLogger

/-- Every writer takes the whole buffer. -/
def Taken (al : AuditLogger) (env : FlushEnv) : Prop :=
  ∀ p ∈ al.writers.zipIdx, p.1.Takes (env p.2) al.buffer

instance (al : AuditLogger) (env : FlushEnv) : Decidable (al.Taken env) :=
  inferInstanceAs (Decidable (∀ p ∈ al.writers.zipIdx, _))

/-- Every accepted event has been written by every writer, or is kept for the next flush. -/
def Kept (al : AuditLogger) : Prop :=
  ∀ w ∈ al.writers, ∀ entry ∈ al.accepted, entry ∈ w.written ∨ entry ∈ al.buffer

/-- The first `n` accepted events have been written by every writer. -/
def Delivered (al : AuditLogger) (n : Nat) : Prop :=
  ∀ w ∈ al.writers, ∀ entry ∈ al.accepted.take n, entry ∈ w.written

/-- What holds whatever the writers do. -/
structure Sound (al : AuditLogger) : Prop where
  /-- Every number is given once. -/
  numbered : ∀ entry ∈ al.accepted, entry.1 < al.accepted.length
  nodup : al.accepted.Nodup
  /-- What is written, and what will be, is in the order of acceptance. -/
  ordered : ∀ w ∈ al.writers, (w.written ++ al.buffer).Sublist al.accepted

section Flush

variable {al : AuditLogger} {env : FlushEnv} {w : Writer} {event : AuditEvent} {n : Nat}

/-- A flush writes the first part of the buffer, all of it exactly if the writer takes it. -/
structure Flushed (al : AuditLogger) (env : FlushEnv) (w w' : Writer) (i : Nat)
    (done rest : List Entry) : Prop where
  mem : (w, i) ∈ al.writers.zipIdx
  split : al.buffer = done ++ rest
  written : w'.written = w.written ++ done
  whole : rest = [] ↔ w.Takes (env i) al.buffer

theorem Flushed.mem_writers {w' : Writer} {i : Nat} {done rest : List Entry}
    (h : Flushed al env w w' i done rest) : w ∈ al.writers :=
  (mem_zipIdx' h.mem).2 ▸ getElem_mem _

theorem flushBuffer_of_nil (h : al.buffer = []) : al.flushBuffer env = al := if_pos h

theorem writers_flushBuffer (h : al.buffer ≠ []) : (al.flushBuffer env).writers =
    al.writers.mapIdx fun i w => (w.writeBatch (env i) al.buffer).1 := by
  rw [flushBuffer, if_neg h]

@[simp] theorem buffer_flushBuffer : (al.flushBuffer env).buffer = [] := by
  rw [flushBuffer]
  split
  · assumption
  · rfl

@[simp] theorem accepted_flushBuffer : (al.flushBuffer env).accepted = al.accepted := by
  rw [flushBuffer]
  split <;> rfl

@[simp] theorem isRunning_flushBuffer : (al.flushBuffer env).isRunning = al.isRunning := by
  rw [flushBuffer]
  split <;> rfl

theorem getElem_mem_zipIdx {i : Nat} (hi : i < al.writers.length) :
    (al.writers[i], i) ∈ al.writers.zipIdx :=
  mk_mem_zipIdx_iff_getElem?.mpr (getElem?_eq_getElem hi)

theorem flushed_writeBatch {i : Nat} (h : (w, i) ∈ al.writers.zipIdx) : ∃ done rest,
    Flushed al env w (w.writeBatch (env i) al.buffer).1 i done rest := by
  obtain ⟨done, rest, hsplit, hwritten, hrest⟩ := writeBatch_split w (env i) al.buffer
  exact ⟨done, rest, h, hsplit, hwritten, hrest.trans (writeBatch_ok_iff _ _ _)⟩

/-- Every writer after a flush is one from before, with a part of the buffer written. -/
theorem exists_flushed {w' : Writer} (h : w' ∈ (al.flushBuffer env).writers) :
    ∃ w i done rest, Flushed al env w w' i done rest := by
  by_cases hnil : al.buffer = []
  · rw [flushBuffer_of_nil hnil] at h
    obtain ⟨i, hi, rfl⟩ := mem_iff_getElem.mp h
    refine ⟨al.writers[i], i, [], [], getElem_mem_zipIdx hi, hnil, (append_nil _).symm, ?_⟩
    rw [hnil]
    exact iff_of_true rfl trivial
  · rw [writers_flushBuffer hnil] at h
    obtain ⟨i, hi, rfl⟩ := mem_mapIdx.mp h
    obtain ⟨done, rest, hflushed⟩ := flushed_writeBatch (getElem_mem_zipIdx hi)
    exact ⟨_, i, done, rest, hflushed⟩

theorem exists_mem_flushBuffer {i : Nat} (env : FlushEnv) (hnil : al.buffer ≠ [])
    (h : (w, i) ∈ al.writers.zipIdx) : ∃ w' ∈ (al.flushBuffer env).writers, ∃ done rest,
      Flushed al env w w' i done rest := by
  refine ⟨(w.writeBatch (env i) al.buffer).1, ?_, flushed_writeBatch h⟩
  obtain ⟨hi, hw⟩ := List.getElem?_eq_some_iff.mp (List.mk_mem_zipIdx_iff_getElem?.mp h)
  rw [writers_flushBuffer hnil]
  exact mem_mapIdx.mpr ⟨i, hi, by rw [hw]⟩

theorem Sound.flushBuffer (h : al.Sound) : (al.flushBuffer env).Sound := by
  refine ⟨?_, ?_, ?_⟩
  · rw [accepted_flushBuffer]
    exact h.numbered
  · rw [accepted_flushBuffer]
    exact h.nodup
  intro w' hw'
  obtain ⟨w, i, done, rest, hflushed⟩ := exists_flushed hw'
  rw [accepted_flushBuffer, buffer_flushBuffer, append_nil, hflushed.written]
  have hall := h.ordered w hflushed.mem_writers
  rw [hflushed.split, ← append_assoc] at hall
  exact (sublist_append_left _ _).trans hall

/-- **A flush loses nothing exactly if every writer takes the whole batch.** -/
theorem kept_flushBuffer_iff (h : al.Sound) :
    (al.flushBuffer env).Kept ↔ al.Kept ∧ al.Taken env := by
  by_cases hnil : al.buffer = []
  · rw [flushBuffer_of_nil hnil]
    refine (and_iff_left fun p _ => ?_).symm
    rw [hnil]
    trivial
  constructor
  · intro hkept
    constructor
    · intro w hw entry hentry
      obtain ⟨i, hi, rfl⟩ := mem_iff_getElem.mp hw
      obtain ⟨w', hw', done, rest, hflushed⟩ :=
        exists_mem_flushBuffer env hnil (getElem_mem_zipIdx hi)
      have hwritten := hkept w' hw' entry (accepted_flushBuffer.symm ▸ hentry)
      rw [buffer_flushBuffer, hflushed.written] at hwritten
      rcases hwritten.resolve_right not_mem_nil |> mem_append.mp with hold | hdone
      · exact .inl hold
      · exact .inr (hflushed.split ▸ mem_append_left _ hdone)
    rintro ⟨w, i⟩ hmem
    obtain ⟨w', hw', done, rest, hflushed⟩ := exists_mem_flushBuffer env hnil hmem
    refine hflushed.whole.mp (eq_nil_iff_forall_not_mem.mpr fun entry hentry => ?_)
    -- an event of the rest is neither written before, as it was still in the buffer, nor now
    have hordered := h.ordered w hflushed.mem_writers
    rw [hflushed.split, ← append_assoc] at hordered
    have hnew := (nodup_append.mp (h.nodup.sublist hordered)).2.2
    have haccepted := hordered.subset (mem_append_right _ hentry)
    have hwritten := hkept w' hw' entry (accepted_flushBuffer.symm ▸ haccepted)
    rw [buffer_flushBuffer, hflushed.written] at hwritten
    exact hnew entry (hwritten.resolve_right not_mem_nil) entry hentry rfl
  · rintro ⟨hkept, htaken⟩ w' hw' entry hentry
    obtain ⟨w, i, done, rest, hflushed⟩ := exists_flushed hw'
    obtain rfl : rest = [] := hflushed.whole.mpr (htaken _ hflushed.mem)
    have hbuffer : al.buffer = done := hflushed.split.trans (append_nil _)
    rw [accepted_flushBuffer] at hentry
    rw [hflushed.written, ← hbuffer]
    exact .inl (mem_append.mpr (hkept w hflushed.mem_writers entry hentry))

theorem Delivered.flushBuffer (h : al.Delivered n) : (al.flushBuffer env).Delivered n := by
  intro w' hw' entry hentry
  obtain ⟨w, i, done, rest, hflushed⟩ := exists_flushed hw'
  rw [accepted_flushBuffer] at hentry
  rw [hflushed.written]
  exact mem_append_left _ (h w hflushed.mem_writers entry hentry)

theorem Kept.delivered (h : al.Kept) (hnil : al.buffer = []) : al.Delivered n := by
  intro w hw entry hentry
  have hwritten := h w hw entry (mem_of_mem_take hentry)
  rw [hnil] at hwritten
  exact hwritten.resolve_right not_mem_nil

theorem Sound.accept (h : al.Sound) : (al.accept event).Sound := by
  have hfresh : (al.accepted.length, event) ∉ al.accepted :=
    fun hmem => Nat.lt_irrefl _ (h.numbered _ hmem)
  refine ⟨?_, ?_, ?_⟩
  · intro entry hentry
    show entry.1 < (al.accepted ++ [_]).length
    rw [length_append, length_singleton]
    rcases mem_append.mp hentry with hold | hnew
    · exact Nat.lt_succ_of_lt (h.numbered entry hold)
    · rw [mem_singleton.mp hnew]
      exact Nat.lt_succ_self _
  · exact nodup_append.mpr ⟨h.nodup, nodup_singleton _, fun a ha b hb hab =>
      hfresh (mem_singleton.mp hb ▸ hab ▸ ha)⟩
  · intro w hw
    show (w.written ++ (al.buffer ++ [_])).Sublist (al.accepted ++ [_])
    rw [← append_assoc]
    exact (h.ordered w hw).append (List.Sublist.refl _)

/-- Taking in an event loses nothing, and finds nothing that was lost. -/
theorem kept_accept_iff (h : al.Sound) : (al.accept event).Kept ↔ al.Kept := by
  constructor <;> intro hkept w hw entry hentry
  · rcases hkept w hw entry (mem_append_left _ hentry) with hwritten | hbuffer
    · exact .inl hwritten
    rcases mem_append.mp hbuffer with hold | hnew
    · exact .inr hold
    · rw [mem_singleton.mp hnew] at hentry
      exact absurd (h.numbered _ hentry) (Nat.lt_irrefl _)
  · rcases mem_append.mp hentry with hold | hnew
    · exact (hkept w hw entry hold).imp_right (mem_append_left _)
    · exact .inr (mem_append_right _ hnew)

open AuditLogger

theorem Delivered.accept (h : al.Delivered n) (hn : n ≤ al.accepted.length) :
    (al.accept event).Delivered n := by
  intro w hw entry hentry
  refine h w hw entry ?_
  rwa [AuditLogger.accept, take_append_of_le_length hn] at hentry

end Flush

/-! ## Open writers -/

section Open

variable {al : AuditLogger} {env : FlushEnv}

/-- All writers are open. -/
def Open (al : AuditLogger) : Prop := ∀ w ∈ al.writers, w.isOpen = true

theorem Open.taken (hopen : al.Open) (h : ∀ i j, (env i j).fault = none) : al.Taken env :=
  fun p hp => (writeBatch_of_isOpen (hopen _ (fst_mem_of_mem_zipIdx hp)) (h p.2)).1

theorem Open.flushBuffer (hopen : al.Open) (h : ∀ i j, (env i j).fault = none) :
    (al.flushBuffer env).Open := by
  by_cases hnil : al.buffer = []
  · rw [flushBuffer_of_nil hnil]
    exact hopen
  intro w' hw'
  rw [writers_flushBuffer hnil] at hw'
  obtain ⟨i, hi, rfl⟩ := mem_mapIdx.mp hw'
  exact (writeBatch_of_isOpen (hopen _ (getElem_mem hi)) (h i)).2

end Open

/-! ## `LogEvent` -/

section LogEvent

variable {al : AuditLogger} {event : AuditEvent} {overflow critical : FlushEnv} {n : Nat}

/-- Every writer takes the whole batch in the flushes that `LogEvent` makes. -/
def TakesEvent (al : AuditLogger) (event : AuditEvent) (overflow critical : FlushEnv) : Prop :=
  shouldLog al.config event = true →
    (al.Overflows → al.Taken overflow) ∧
      (al.Critical event → ((al.makeRoom overflow).accept event).Taken critical)

instance : Decidable (al.TakesEvent event overflow critical) :=
  inferInstanceAs (Decidable (_ → _ ∧ _))

/-- What holds of the logger after `makeRoom` if a flush keeps it. -/
theorem makeRoom_induction {motive : AuditLogger → Prop} (hal : motive al)
    (hflush : motive al → motive (al.flushBuffer overflow)) : motive (al.makeRoom overflow) := by
  rw [makeRoom]
  split
  · exact hflush hal
  · exact hal

/-- `LogEvent` is made of flushes and of taking in the event: what those keep, it keeps. -/
theorem logEvent_induction {motive : AuditLogger → Prop} (hal : motive al)
    (hflush : ∀ al env, env = overflow ∨ env = critical → motive al → motive (al.flushBuffer env))
    (haccept : ∀ al, motive al → motive (al.accept event)) :
    motive (al.logEvent event overflow critical) := by
  have hroom : motive ((al.makeRoom overflow).accept event) :=
    haccept _ (makeRoom_induction hal (hflush al overflow (.inl rfl)))
  rw [logEvent]
  split
  · split
    · exact hflush _ critical (.inr rfl) hroom
    · exact hroom
  · exact hal

theorem Sound.makeRoom (h : al.Sound) : (al.makeRoom overflow).Sound :=
  makeRoom_induction h fun h => h.flushBuffer

/-- A full buffer is flushed first, and nothing is lost if the writers take it. -/
theorem kept_makeRoom_iff (h : al.Sound) :
    (al.makeRoom overflow).Kept ↔ al.Kept ∧ (al.Overflows → al.Taken overflow) := by
  rw [makeRoom]
  split
  · next hover => rw [kept_flushBuffer_iff h, forall_prop_of_true hover]
  · next hover => exact (and_iff_left fun hover' => absurd hover' hover).symm

theorem Sound.logEvent (h : al.Sound) : (al.logEvent event overflow critical).Sound :=
  logEvent_induction h (fun _ _ _ h => h.flushBuffer) fun _ h => h.accept

/-- Nothing is lost by an event exactly if the writers take what it makes them flush. -/
theorem kept_logEvent_iff (h : al.Sound) : (al.logEvent event overflow critical).Kept ↔
    al.Kept ∧ al.TakesEvent event overflow critical := by
  have hroom : ((al.makeRoom overflow).accept event).Kept ↔
      al.Kept ∧ (al.Overflows → al.Taken overflow) :=
    (kept_accept_iff h.makeRoom).trans (kept_makeRoom_iff h)
  rw [logEvent, TakesEvent]
  split
  · next hlog =>
    rw [forall_prop_of_true hlog]
    split
    · next hcritical =>
      rw [kept_flushBuffer_iff h.makeRoom.accept, hroom, forall_prop_of_true hcritical, and_assoc]
    · next hcritical =>
      rw [hroom, and_iff_left fun hcritical' => absurd hcritical' hcritical]
  · next hlog => exact (and_iff_left fun hlog' => absurd hlog' hlog).symm

theorem length_accepted_logEvent : al.accepted.length ≤
    (al.logEvent event overflow critical).accepted.length := by
  refine logEvent_induction (motive := fun t => al.accepted.length ≤ t.accepted.length)
    (Nat.le_refl _) (fun t env _ h => ?_) fun t h => ?_
  · rw [accepted_flushBuffer]
    exact h
  show _ ≤ (t.accepted ++ [_]).length
  rw [length_append]
  exact Nat.le_add_right_of_le h

theorem Delivered.logEvent (h : al.Delivered n) (hn : n ≤ al.accepted.length) :
    (al.logEvent event overflow critical).Delivered n := by
  -- that there are so many accepted events has to be carried along
  refine (logEvent_induction (motive := fun t => t.Delivered n ∧ n ≤ t.accepted.length)
    ⟨h, hn⟩ (fun t env _ h => ?_) fun t h => ?_).1
  · rw [accepted_flushBuffer]
    exact ⟨h.1.flushBuffer, h.2⟩
  refine ⟨h.1.accept h.2, ?_⟩
  show _ ≤ (t.accepted ++ [_]).length
  rw [length_append]
  exact Nat.le_add_right_of_le h.2

theorem isRunning_logEvent : (al.logEvent event overflow critical).isRunning = al.isRunning :=
  logEvent_induction (motive := fun t => t.isRunning = al.isRunning) rfl
    (fun _ _ _ h => isRunning_flushBuffer.trans h) fun _ h => h

section

variable (hopen : al.Open) (h : ∀ i j, (overflow i j).fault = none)
include hopen h

theorem Open.makeRoom : (al.makeRoom overflow).Open :=
  makeRoom_induction hopen fun hopen => hopen.flushBuffer h

theorem Open.takesEvent
    (h' : ∀ i j, (critical i j).fault = none) : al.TakesEvent event overflow critical :=
  fun _ => ⟨fun _ => hopen.taken h, fun _ => Open.taken (hopen.makeRoom h) h'⟩

theorem Open.logEvent
    (h' : ∀ i j, (critical i j).fault = none) : (al.logEvent event overflow critical).Open := by
  refine logEvent_induction hopen (fun t env henv ht => ?_) fun _ ht => ht
  rcases henv with rfl | rfl
  · exact ht.flushBuffer h
  · exact ht.flushBuffer h'

end

end LogEvent

/-! ## `Stop` -/

section Stop

variable {al : AuditLogger} {n : Nat}

@[simp] theorem buffer_stop : al.stop.buffer = al.buffer := by
  rw [stop]
  split <;> rfl

@[simp] theorem accepted_stop : al.stop.accepted = al.accepted := by
  rw [stop]
  split <;> rfl

@[simp] theorem isRunning_stop : al.stop.isRunning = false := by
  rw [stop]
  split
  · rfl
  · next h => exact Bool.eq_false_of_not_eq_true h

theorem exists_written_of_mem_stop {w' : Writer} (h : w' ∈ al.stop.writers) :
    ∃ w ∈ al.writers, w'.written = w.written := by
  rw [stop] at h
  split at h
  · obtain ⟨w, hw, rfl⟩ := mem_map.mp h
    exact ⟨w, hw, written_close w⟩
  · exact ⟨w', h, rfl⟩

theorem exists_mem_stop {w : Writer} (h : w ∈ al.writers) :
    ∃ w' ∈ al.stop.writers, w'.written = w.written := by
  rw [stop]
  split
  · exact ⟨w.close, mem_map_of_mem h, written_close w⟩
  · exact ⟨w, h, rfl⟩

theorem Sound.stop (h : al.Sound) : al.stop.Sound := by
  refine ⟨?_, ?_, ?_⟩
  · rw [accepted_stop]
    exact h.numbered
  · rw [accepted_stop]
    exact h.nodup
  intro w' hw'
  obtain ⟨w, hw, hwritten⟩ := exists_written_of_mem_stop hw'
  rw [accepted_stop, buffer_stop, hwritten]
  exact h.ordered w hw

/-- `Stop` itself loses nothing. -/
theorem kept_stop_iff : al.stop.Kept ↔ al.Kept := by
  rw [Kept, Kept, accepted_stop, buffer_stop]
  constructor
  · intro h w hw entry hentry
    obtain ⟨w', hw', hwritten⟩ := exists_mem_stop hw
    exact hwritten ▸ h w' hw' entry hentry
  intro h w' hw' entry hentry
  obtain ⟨w, hw, hwritten⟩ := exists_written_of_mem_stop hw'
  exact hwritten.symm ▸ h w hw entry hentry

theorem Delivered.stop (h : al.Delivered n) : al.stop.Delivered n := by
  intro w' hw' entry hentry
  obtain ⟨w, hw, hwritten⟩ := exists_written_of_mem_stop hw'
  rw [accepted_stop] at hentry
  rw [hwritten]
  exact h w hw entry hentry

end Stop

end AuditLogger

/-! ## Runs -/

/-- A logger in use: how many events it had accepted when `Stop` began, and whether it has
ended. -/
structure AuditSystem where
  al : AuditLogger
  stopped : Option Nat
  ended : Bool

/-- The calls and the flushes of the ticker and at the end, each under the lock of the logger.
-/
inductive AuditAction where
  | logEvent (event : AuditEvent) (overflow critical : FlushEnv)
  | tick (env : FlushEnv)
  | stop
  | finish (env : FlushEnv)

/-- No write fails while the writer is open. -/
def AuditAction.Faultless : AuditAction → Prop
  | .logEvent _ overflow critical =>
    (∀ i j, (overflow i j).fault = none) ∧ ∀ i j, (critical i j).fault = none
  | .tick env | .finish env => ∀ i j, (env i j).fault = none
  | .stop => True

namespace AuditSystem

/-- A logger that has just been made. -/
def start (al : AuditLogger) : AuditSystem := ⟨al, none, false⟩

/-- One step. The goroutine may take a tick even after `Stop`, as `select` chooses freely. -/
def step (s : AuditSystem) : AuditAction → Option AuditSystem
  | .logEvent event overflow critical =>
    some { s with al := s.al.logEvent event overflow critical }
  | .tick env => if s.ended then none else some { s with al := s.al.flushBuffer env }
  | .stop =>
    some { s with
      al := s.al.stop
      stopped := if s.al.isRunning then some s.al.accepted.length else s.stopped }
  | .finish env =>
    if s.al.isRunning = true ∨ s.ended = true then none
    else some { s with al := s.al.flushBuffer env, ended := true }

/-- No event is lost. -/
structure Lossless (s : AuditSystem) : Prop where
  /-- No writer writes an event twice. -/
  once : ∀ w ∈ s.al.writers, w.written.Nodup
  /-- Every writer writes in the order of acceptance. -/
  ordered : ∀ w ∈ s.al.writers, w.written.Sublist s.al.accepted
  /-- What a writer has not written is kept for a later flush. -/
  kept : s.al.Kept
  /-- When all has ended, every writer has what was accepted before `Stop`. -/
  delivered : s.ended = true → ∀ n, s.stopped = some n → s.al.Delivered n

/-- At every flush that the action makes, every writer takes the whole batch. -/
def Takes (s : AuditSystem) : AuditAction → Prop
  | .logEvent event overflow critical => s.al.TakesEvent event overflow critical
  | .tick env => s.ended = false → s.al.Taken env
  | .stop => True
  | .finish env => s.al.isRunning = false ∧ s.ended = false → s.al.Taken env

instance (s : AuditSystem) : (action : AuditAction) → Decidable (s.Takes action) := fun action => by
  cases action <;> dsimp only [Takes] <;> infer_instance

/-- What holds whatever the writers do. -/
structure Sound (s : AuditSystem) : Prop where
  logger : s.al.Sound
  stopped : ∀ n, s.stopped = some n → n ≤ s.al.accepted.length
  ended : s.ended = true → s.al.isRunning = false

section Step

variable {s t : AuditSystem} {action : AuditAction}

/-- Everything that a step can do to the logger. -/
inductive Moves (s : AuditSystem) : AuditAction → AuditSystem → Prop
  | logEvent (event overflow critical) :
    Moves s (.logEvent event overflow critical)
      ⟨s.al.logEvent event overflow critical, s.stopped, s.ended⟩
  | tick (env) (hended : s.ended = false) :
    Moves s (.tick env) ⟨s.al.flushBuffer env, s.stopped, s.ended⟩
  | stop :
    Moves s .stop
      ⟨s.al.stop, if s.al.isRunning then some s.al.accepted.length else s.stopped, s.ended⟩
  | finish (env) (hstopped : s.al.isRunning = false) (hended : s.ended = false) :
    Moves s (.finish env) ⟨s.al.flushBuffer env, s.stopped, true⟩

theorem step_eq_some_iff : s.step action = some t ↔ Moves s action t := by
  constructor <;> intro h
  · cases action with
    | logEvent event overflow critical =>
      cases h
      exact .logEvent event overflow critical
    | tick env =>
      rw [step] at h
      split at h
      · cases h
      · next hended =>
        cases h
        exact .tick env (Bool.eq_false_of_not_eq_true hended)
    | stop =>
      cases h
      exact .stop
    | finish env =>
      rw [step] at h
      split at h
      · cases h
      · next hboth =>
        obtain ⟨hstopped, hended⟩ := not_or.mp hboth
        cases h
        exact .finish env (Bool.eq_false_of_not_eq_true hstopped)
          (Bool.eq_false_of_not_eq_true hended)
  · cases h with
    | logEvent event overflow critical => rfl
    | tick env hended => simp [step, hended]
    | stop => rfl
    | finish env hstopped hended => simp [step, hstopped, hended]

theorem Sound.step (hs : s.Sound) (h : Moves s action t) : t.Sound := by
  cases h with
  | logEvent event overflow critical =>
    refine ⟨hs.logger.logEvent, fun n hn => ?_, fun hended => ?_⟩
    · exact (hs.stopped n hn).trans length_accepted_logEvent
    · exact isRunning_logEvent.trans (hs.ended hended)
  | tick env hended =>
    refine ⟨hs.logger.flushBuffer, fun n hn => ?_, fun hended' => ?_⟩
    · rw [accepted_flushBuffer]
      exact hs.stopped n hn
    · exact isRunning_flushBuffer.trans (hs.ended hended')
  | stop =>
    refine ⟨hs.logger.stop, fun n hn => ?_, fun _ => isRunning_stop⟩
    rw [accepted_stop]
    split at hn
    · exact (some.inj hn).ge
    · exact hs.stopped n hn
  | finish env hstopped hended =>
    refine ⟨hs.logger.flushBuffer, fun n hn => ?_, fun _ => ?_⟩
    · rw [accepted_flushBuffer]
      exact hs.stopped n hn
    · exact isRunning_flushBuffer.trans hstopped

/-- **A step loses nothing exactly if the writers take what it flushes.** -/
theorem kept_step_iff (hs : s.Sound) (h : Moves s action t) :
    t.al.Kept ↔ s.al.Kept ∧ s.Takes action := by
  cases h with
  | logEvent event overflow critical => exact kept_logEvent_iff hs.logger
  | tick env hended =>
    rw [Takes, forall_prop_of_true hended]
    exact kept_flushBuffer_iff hs.logger
  | stop => exact kept_stop_iff.trans (and_iff_left trivial).symm
  | finish env hstopped hended =>
    rw [Takes, forall_prop_of_true ⟨hstopped, hended⟩]
    exact kept_flushBuffer_iff hs.logger

/-- What has been delivered stays so, and the last flush delivers what is kept. -/
theorem Lossless.step (hs : s.Sound) (hlossless : s.Lossless) (htakes : s.Takes action)
    (h : Moves s action t) : t.Lossless := by
  have hsound := hs.step h
  have hkept := (kept_step_iff hs h).mpr ⟨hlossless.kept, htakes⟩
  have hordered : ∀ w ∈ t.al.writers, w.written.Sublist t.al.accepted := fun w hw =>
    (sublist_append_left _ _).trans (hsound.logger.ordered w hw)
  refine ⟨fun w hw => hsound.logger.nodup.sublist (hordered w hw), hordered, hkept, ?_⟩
  intro hended n hn
  cases h with
  | logEvent event overflow critical =>
    exact (hlossless.delivered hended n hn).logEvent (hs.stopped n hn)
  | tick env hrunning => exact (hlossless.delivered hended n hn).flushBuffer
  | stop =>
    -- the goroutine ends after `Stop` only, so this is not the `Stop` that counts
    rw [hs.ended hended, if_neg Bool.false_ne_true] at hn
    exact (hlossless.delivered hended n hn).stop
  | finish env hstopped hrunning => exact hkept.delivered buffer_flushBuffer

/-- A step at which a writer does not take everything can be made. -/
theorem exists_moves_of_not_takes (h : ¬s.Takes action) : ∃ t, Moves s action t := by
  cases action with
  | logEvent event overflow critical => exact ⟨_, .logEvent event overflow critical⟩
  | tick env => exact ⟨_, .tick env (Classical.not_imp.mp h).1⟩
  | stop => exact absurd trivial h
  | finish env =>
    obtain ⟨hstopped, hended⟩ := (Classical.not_imp.mp h).1
    exact ⟨_, .finish env hstopped hended⟩

/-- From any state in which nothing is lost, nothing is exactly if the writers take every flush.
-/
theorem lossless_iff_along (hs : s.Sound) (hlossless : s.Lossless) (actions : List AuditAction) :
    (∀ t ∈ Lts.trace step s actions, t.Lossless) ↔ Lts.Along step Takes s actions := by
  have hinv : ∀ s a t, Sound s → s.step a = some t → Sound t :=
    fun s a t hs h => hs.step (step_eq_some_iff.mp h)
  have hkeep : ∀ s a t, Sound s → s.Lossless → s.Takes a → s.step a = some t → t.Lossless :=
    fun s a t hs hlossless htakes h => hlossless.step hs htakes (step_eq_some_iff.mp h)
  have hbreak : ∀ s a, Sound s → s.Lossless → ¬s.Takes a →
      ∃ t, s.step a = some t ∧ ¬t.Lossless := by
    intro s a hs _ htakes
    obtain ⟨t, hmoves⟩ := exists_moves_of_not_takes htakes
    exact ⟨t, step_eq_some_iff.mpr hmoves, fun h =>
      htakes ((kept_step_iff hs hmoves).mp h.kept).2⟩
  exact Lts.forall_trace_iff_along hinv hkeep hbreak actions s hs hlossless

end Step

/-! ## Results -/

section New

variable {config : AuditConfig} {file : Option Int} {al : AuditLogger}

theorem new_eq_some (h : new config file = some al) :
    al = ⟨config.withDefaults, initializeWriters config.withDefaults (file.getD 0),
      [], true, []⟩ := by
  rw [new] at h
  split at h
  · cases h
  · exact (some.inj h).symm

theorem of_mem_initializeWriters {fileSize : Int} {w : Writer}
    (h : w ∈ initializeWriters config fileSize) : w.written = [] ∧ w.isOpen = true := by
  simp only [initializeWriters, mem_append, mem_ite_nil_right, mem_singleton] at h
  obtain ((⟨-, rfl⟩ | ⟨-, rfl⟩) | ⟨-, rfl⟩) | ⟨-, rfl⟩ := h <;> exact ⟨rfl, rfl⟩

section

variable (h : AuditLogger.new config file = some al)
include h

theorem sound_start : (start al).Sound := by
  obtain rfl := new_eq_some h
  refine ⟨⟨fun entry hentry => absurd hentry not_mem_nil, nodup_nil,
    fun w hw => ?_⟩, fun n hn => (some_ne_none n hn.symm).elim,
    fun hended => absurd hended Bool.false_ne_true⟩
  rw [(of_mem_initializeWriters hw).1]
  exact List.Sublist.refl _

theorem lossless_start : (start al).Lossless := by
  have hsound := sound_start h
  obtain rfl := new_eq_some h
  refine ⟨fun w hw => ?_, fun w hw => ?_, fun w _ entry hentry => absurd hentry not_mem_nil,
    fun hended => absurd hended Bool.false_ne_true⟩
  · rw [(of_mem_initializeWriters hw).1]
    exact nodup_nil
  · exact (sublist_append_left _ _).trans (hsound.logger.ordered w hw)

/-- **Before `Stop`, no event is lost**, if no write fails. -/
theorem lossless_before_stop
    (actions : List AuditAction) (hactions : ∀ a ∈ actions, a.Faultless ∧ a ≠ .stop) :
    ∀ t ∈ Lts.trace step (start al) actions, t.Lossless := by
  refine (lossless_iff_along (sound_start h) (lossless_start h) actions).mpr ?_
  have hopen : (start al).al.Open := by
    obtain rfl := new_eq_some h
    exact fun w hw => (of_mem_initializeWriters hw).2
  -- until `Stop` all writers stay open, and an open writer takes everything
  have himp : ∀ (s : AuditSystem) (a : AuditAction), s.al.Open → a.Faultless ∧ a ≠ .stop →
      s.Takes a ∧ ∀ t ∈ s.step a, t.al.Open := by
    rintro s a hopen ⟨hfaultless, hne⟩
    cases a with
    | logEvent event overflow critical =>
      refine ⟨hopen.takesEvent hfaultless.1 hfaultless.2, fun t ht => ?_⟩
      obtain ⟨⟩ := step_eq_some_iff.mp ht
      exact hopen.logEvent hfaultless.1 hfaultless.2
    | stop => exact absurd rfl hne
    | tick | finish =>
      refine ⟨fun _ => hopen.taken hfaultless, fun t ht => ?_⟩
      obtain ⟨⟩ := step_eq_some_iff.mp ht
      exact hopen.flushBuffer hfaultless
  exact Lts.Along.mono_of_inv (fun s => s.al.Open) himp hopen
    (Lts.Along.of_forall (fun a ha _ => hactions a ha) _)

end

/-- **No event is lost in a run exactly if every writer takes all of every batch.** -/
theorem lossless_iff (h : AuditLogger.new config file = some al) (actions : List AuditAction) :
    (∀ t ∈ Lts.trace step (start al) actions, t.Lossless) ↔
      Lts.Along step Takes (start al) actions :=
  lossless_iff_along (sound_start h) (lossless_start h) actions

/-- A log file of at most a thousand bytes and nothing else. -/
def smallFile : AuditConfig :=
  ⟨false, true, false, false, 1000, 0, false, .info, [], [], [], []⟩

/-- An event of no particular importance. -/
def someEvent : AuditEvent := ⟨"1", .info, "system", "read", .low⟩

/-- All lines have three hundred bytes (a line has 289 at least), a new file is empty, and nothing
fails. -/
def noFault : FlushEnv := fun _ _ => ⟨300, 0, none⟩

/-- A logger that has just been made with the small file. -/
def smallFileLogger : AuditLogger :=
  ⟨smallFile.withDefaults, [⟨.file ⟨true, 0, 1000⟩, []⟩], [], true, []⟩

theorem lossless_before_stop_tick : new smallFile (some 0) = some smallFileLogger ∧
    ∀ t ∈ Lts.trace step (start smallFileLogger)
      [.logEvent someEvent noFault noFault, .tick noFault], t.Lossless :=
  have hnew : new smallFile (some 0) = some smallFileLogger := rfl
  ⟨hnew, lossless_before_stop hnew _ (by simp [AuditAction.Faultless, noFault])⟩

/-- If the ticker flushes before `Stop`, the event reaches the file. -/
theorem lossless_tick_stop : AuditLogger.new smallFile (some 0) = some smallFileLogger ∧
      ∀ t ∈ Lts.trace step (start smallFileLogger)
        [.logEvent someEvent noFault noFault, .tick noFault, .stop, .finish noFault], t.Lossless :=
  have hnew : new smallFile (some 0) = some smallFileLogger := rfl
  ⟨hnew, (lossless_iff hnew _).mpr (by decide +kernel)⟩

/-- **An event that is in the buffer when `Stop` begins is lost to the log file**, which is
closed before the last flush. -/
theorem stop_counterexample : AuditLogger.new smallFile (some 0) = some smallFileLogger ∧
      (∀ a ∈ [.logEvent someEvent noFault noFault, .stop, .finish noFault],
        AuditAction.Faultless a) ∧ ∃ s, Lts.exec step (start smallFileLogger)
          [.logEvent someEvent noFault noFault, .stop, .finish noFault] = some s ∧
        s.ended = true ∧ s.stopped = some 1 ∧ s.al.accepted = [(0, someEvent)] ∧
        s.al.buffer = [] ∧ s.al.writers.map Writer.written = [[]] ∧ ¬s.Lossless := by
  refine ⟨rfl, ?_, _, rfl, rfl, rfl, rfl, rfl, rfl, fun hlossless => ?_⟩
  · intro a ha
    simp only [mem_cons, not_mem_nil, or_false] at ha
    obtain rfl | rfl | rfl := ha
    · exact ⟨fun _ _ => rfl, fun _ _ => rfl⟩
    · trivial
    · exact fun _ _ => rfl
  · have hwritten := hlossless.delivered rfl 1 rfl _ (mem_singleton.mpr rfl) (0, someEvent)
      (mem_singleton.mpr rfl)
    exact absurd hwritten not_mem_nil

end New

end AuditSystem

end DistributedKV.Security.Audit
