import DistributedKV.Lib.BubbleSort
import DistributedKV.Lib.GoTime
import DistributedKV.Lib.Lts

/-!
# Message batching (`batching.go`)

`QueueMessage` appends a message to the queue of its connection. A flush cuts the whole queue off
under the lock, and then sorts, sends and acknowledges the messages without it, so any number of
flushes may be under way. A full queue only signals the batcher, which flushes some time later.

The checksum and the compression of a batch do not touch its messages and are left out.

- `batching_conserves`: the accepted messages are the blocks of the flushes and what is pending, in
  this order; a batch is its block stably sorted by priority; callbacks are called once, in the
  order of the batch. One step of `Conserved` is `conserved_step`.
- `within_limit_iff`: no batch is over `MaxBatchSize` exactly if no flush comes late (`InTime`).

`QueueMessage` and `flush` are `batching.go:230-290` and `317-403`.
-/

namespace DistributedKV.Performance

open List Option

/-- `BatchingConfig`: what decides when to flush. -/
structure BatchingConfig where
  maxBatchSize : Int
  maxBatchBytes : Int
  batchTimeout : Int64
deriving DecidableEq, Repr

/-- `BatchMessage`, with the length of its data and whether it has a callback. -/
structure BatchMessage where
  id : String
  priority : Int
  bytes : Nat
  hasCallback : Bool
  deadline : Option Int
deriving DecidableEq, Repr

/-- `ConnectionBatcher`; `flushCh` holds at most one signal. -/
structure ConnectionBatcher where
  config : BatchingConfig
  pendingMsgs : List BatchMessage
  pendingBytes : Nat
  lastFlush : Int
  flushCh : Bool
  isRunning : Bool
deriving DecidableEq, Repr

namespace ConnectionBatcher

/-- `shouldFlush`; from 2 on a priority is high. -/
def shouldFlush (cb : ConnectionBatcher) (now : Int) : Bool :=
  decide (cb.pendingMsgs.length ≥ cb.config.maxBatchSize) ||
    decide (cb.pendingBytes ≥ cb.config.maxBatchBytes) ||
    cb.pendingMsgs.any (fun msg => decide (msg.priority ≥ 2)) ||
    decide (Time.sub now cb.lastFlush ≥ cb.config.batchTimeout)

/-- `QueueMessage`, with its error. -/
def queueMessage (cb : ConnectionBatcher) (msg : BatchMessage) (now : Int) :
    ConnectionBatcher × Option String :=
  if !cb.isRunning then (cb, some "connection batcher is not running")
  else if msg.deadline.any (· < now) then (cb, some "message expired")
  else
    let cb := { cb with
      pendingMsgs := cb.pendingMsgs ++ [msg]
      pendingBytes := cb.pendingBytes + msg.bytes }
    ({ cb with flushCh := cb.flushCh || cb.shouldFlush now }, none)

end ConnectionBatcher

/-- `sortMessagesByPriority`. -/
def sortMessagesByPriority (messages : List BatchMessage) : List BatchMessage :=
  bubbleSort BatchMessage.priority messages

/-- Where a flush stands: it has cut off the queue, it has sorted the messages, or it has sent
them with some result and called the callbacks of the first of them. -/
inductive FlushPhase where
  | cut
  | optimized
  | sent (err : Option String) (called : Nat)
deriving DecidableEq, Repr

/-- A flush: what it cut off, and the messages of its batch. -/
structure Flush where
  block : List BatchMessage
  messages : List BatchMessage
  phase : FlushPhase
deriving DecidableEq, Repr

/-- A callback that a flush called. -/
structure CallbackCall where
  flush : Nat
  msg : BatchMessage
  err : Option String
deriving DecidableEq, Repr

/-- A batcher, the messages it accepted, those since the last flush apart, its flushes and
the callbacks they called. -/
structure BatchingRun where
  batcher : ConnectionBatcher
  accepted : List BatchMessage
  sinceFlush : Nat
  flushes : List Flush
  calls : List CallbackCall
deriving DecidableEq, Repr

inductive BatchingEvent where
  | queue (msg : BatchMessage) (now : Int)
  | receive
  | flush (now : Int)
  | proceed (flush : Nat) (err : Option String)

namespace BatchingRun

/-- The next step of a flush; the result of the send is an input. -/
def proceed (s : BatchingRun) (flush : Nat) (err : Option String) (f : Flush) :
    Option BatchingRun :=
  match f.phase with
  | .cut => some { s with
      flushes := s.flushes.set flush
        { f with messages := sortMessagesByPriority f.messages, phase := .optimized } }
  | .optimized => some { s with flushes := s.flushes.set flush { f with phase := .sent err 0 } }
  | .sent err called => do
    let msg ← f.messages[called]?
    some { s with
      flushes := s.flushes.set flush { f with phase := .sent err (called + 1) }
      calls := s.calls ++ if msg.hasCallback then [⟨flush, msg, err⟩] else [] }

/-- One step: a message is queued, the batcher loop takes a signal, a flush does its locked
part, or goes on. -/
def step (s : BatchingRun) : BatchingEvent → Option BatchingRun
  | .queue msg now =>
    match s.batcher.queueMessage msg now with
    | (cb, none) => some { s with
        batcher := cb, accepted := s.accepted ++ [msg], sinceFlush := s.sinceFlush + 1 }
    | (cb, some _) => some { s with batcher := cb }
  | .receive =>
    if s.batcher.flushCh then some { s with batcher := { s.batcher with flushCh := false } }
    else none
  | .flush now =>
    if s.batcher.pendingMsgs.length = 0 then some s
    else some { s with
      batcher := { s.batcher with pendingMsgs := [], pendingBytes := 0, lastFlush := now }
      sinceFlush := 0
      flushes := s.flushes ++ [⟨s.batcher.pendingMsgs, s.batcher.pendingMsgs, .cut⟩] }
  | .proceed flush err => s.flushes[flush]?.bind (s.proceed flush err)

/-- A batcher that has just been created. -/
def start (config : BatchingConfig) (now : Int) : BatchingRun :=
  ⟨⟨config, [], 0, now, false, true⟩, [], 0, [], []⟩

end BatchingRun

namespace Flush

/-- The callbacks that the flush has called. -/
def called (f : Flush) (flush : Nat) : List CallbackCall :=
  match f.phase with
  | .sent err called => ((f.messages.take called).filter (·.hasCallback)).map (⟨flush, ·, err⟩)
  | _ => []

/-- The steps that a flush has to make. -/
def left (f : Flush) : Nat :=
  match f.phase with
  | .cut => f.messages.length + 2
  | .optimized => f.messages.length + 1
  | .sent _ called => f.messages.length - called

/-- What a batch is made of. -/
def Ordered (f : Flush) : Prop :=
  match f.phase with
  | .cut => f.messages = f.block
  | _ => StableSort BatchMessage.priority f.block f.messages

end Flush

namespace BatchingRun

/-- **No message is lost or sent twice.** -/
structure Conserved (s : BatchingRun) : Prop where
  partition : s.accepted = (s.flushes.map (·.block)).flatten ++ s.batcher.pendingMsgs
  ordered : ∀ f ∈ s.flushes, f.Ordered
  callbacks : ∀ flush f, s.flushes[flush]? = some f →
    s.calls.filter (·.flush = flush) = f.called flush
  known : ∀ call ∈ s.calls, call.flush < s.flushes.length

variable {s t : BatchingRun}

/-- A flush makes a step: it keeps its block and may call a callback. -/
theorem Conserved.set (hs : s.Conserved) {flush : Nat} {f f' : Flush} {calls : List CallbackCall}
    (hf : s.flushes[flush]? = some f) (hblock : f'.block = f.block) (hordered : f'.Ordered)
    (hcalls : ∀ call ∈ calls, call.flush = flush)
    (hcalled : f'.called flush = f.called flush ++ calls) :
    Conserved { s with flushes := s.flushes.set flush f', calls := s.calls ++ calls } := by
  obtain ⟨hlt, hget⟩ := List.getElem?_eq_some_iff.mp hf
  have hblocks : (s.flushes.set flush f').map (·.block) = s.flushes.map (·.block) := by
    refine ext_getElem? fun i => ?_
    rw [getElem?_map, getElem?_map, getElem?_set]
    split
    · next hi => simp [← hi, hlt, hget, hblock]
    · rfl
  refine ⟨?_, fun g hg => ?_, fun k g hg => ?_, fun call hcall => ?_⟩
  · rw [hblocks]
    exact hs.partition
  · rcases mem_or_eq_of_mem_set hg with hg | rfl
    · exact hs.ordered g hg
    · exact hordered
  · rw [filter_append]
    by_cases hk : flush = k
    · subst hk
      obtain rfl : f' = g := by simpa [getElem?_set, hlt] using hg
      rw [hs.callbacks flush f hf, hcalled, filter_eq_self.mpr (by simpa using hcalls)]
    rw [getElem?_set_ne hk] at hg
    rw [hs.callbacks k g hg, filter_eq_nil_iff.mpr, append_nil]
    intro call hcall
    simp [hcalls call hcall, hk]
  · rw [length_set]
    rcases mem_append.mp hcall with hcall | hcall
    · exact hs.known call hcall
    · exact hcalls call hcall ▸ hlt

/-- A flush that is not done can go on, whatever else happens, and then has less to do. -/
theorem conserved_proceed (hs : s.Conserved) {flush : Nat} (err : Option String) {f : Flush}
    (hf : s.flushes[flush]? = some f) (hleft : f.left ≠ 0) :
    ∃ t f', s.proceed flush err f = some t ∧ t.Conserved ∧ t.flushes[flush]? = some f' ∧
      f'.left < f.left := by
  have hordered := hs.ordered f (mem_of_getElem? hf)
  have hset : ∀ f' : Flush, (s.flushes.set flush f')[flush]? = some f' := fun f' =>
    List.getElem?_set_self (List.getElem?_eq_some_iff.mp hf).1
  rw [Flush.Ordered] at hordered
  rw [Flush.left] at hleft
  rw [proceed, Flush.left]
  cases hphase : f.phase with
  | cut =>
    rw [hphase] at hordered
    refine ⟨_, _, rfl, ?_, hset _, ?_⟩
    · refine append_nil s.calls ▸ hs.set hf rfl ?_ nofun (by simp [Flush.called, hphase])
      exact hordered ▸ bubbleSort_stable _ _
    · simp [Flush.left, (bubbleSort_stable _ f.messages).perm.length_eq, sortMessagesByPriority]
  | optimized =>
    rw [hphase] at hordered
    refine ⟨_, _, rfl, ?_, hset _, by simp [Flush.left]⟩
    exact append_nil s.calls ▸ hs.set hf rfl hordered nofun (by simp [Flush.called, hphase])
  | sent err called =>
    rw [hphase] at hordered hleft
    have hlt : called < f.messages.length := by
      dsimp only at hleft
      omega
    have hget := getElem?_eq_getElem hlt
    dsimp only
    rw [hget]
    refine ⟨_, _, rfl, hs.set hf rfl hordered ?_ ?_, hset _, ?_⟩
    · split <;> simp
    · simp only [Flush.called, hphase, take_add_one, hget, filter_append, map_append]
      cases hcallback : f.messages[called].hasCallback <;> simp [hcallback]
    · simp only [Flush.left]
      omega

/-- A queued message joins the pending ones, and a flush takes all of them. -/
theorem conserved_step (hs : s.Conserved) {event : BatchingEvent} (h : s.step event = some t) :
    t.Conserved := by
  cases event with
  | queue msg now =>
    rw [step, ConnectionBatcher.queueMessage] at h
    split_ifs at h <;> cases h
    iterate 2 exact ⟨hs.partition, hs.ordered, hs.callbacks, hs.known⟩
    refine ⟨?_, hs.ordered, hs.callbacks, hs.known⟩
    rw [hs.partition, append_assoc]
  | receive =>
    rw [step] at h
    split at h <;> cases h
    exact ⟨hs.partition, hs.ordered, hs.callbacks, hs.known⟩
  | flush now =>
    rw [step] at h
    split at h <;> cases h
    · exact hs
    refine ⟨?_, ?_, fun k g hg => ?_, fun call hcall => ?_⟩
    · simpa using hs.partition
    · exact forall_mem_append.mpr ⟨hs.ordered, by simp [Flush.Ordered]⟩
    · by_cases hk : k < s.flushes.length
      · rw [getElem?_append_left hk] at hg
        exact hs.callbacks k g hg
      -- nothing was called for the new flush
      obtain rfl : _ = g := mem_singleton.mp
        (mem_of_getElem? (getElem?_append_right (not_lt.mp hk) ▸ hg)) |>.symm
      refine filter_eq_nil_iff.mpr fun call hcall => ?_
      have := hs.known call hcall
      simp
      omega
    · exact (hs.known call hcall).trans_le (by simp)
  | proceed flush err =>
    obtain ⟨f, hf, h⟩ := bind_eq_some_iff.mp h
    by_cases hleft : f.left = 0
    · rw [Flush.left] at hleft
      rw [proceed] at h
      cases hphase : f.phase with
      | sent err called =>
        simp only [hphase] at h hleft
        rw [getElem?_eq_none (by omega)] at h
        cases h
      | _ => simp [hphase] at hleft
    · obtain ⟨u, -, hu, hconserved, -⟩ := conserved_proceed hs err hf hleft
      exact some.inj (hu.symm.trans h) ▸ hconserved

/-- **Batching conserves messages**, over every interleaving of `QueueMessage` with any number
of flushes. Each flush that is not done can take its next step. -/
theorem batching_conserves (config : BatchingConfig) (now : Int) (events : List BatchingEvent) :
    ∀ t ∈ Lts.trace step (start config now) events, t.Conserved ∧
      ∀ flush f, t.flushes[flush]? = some f → f.left ≠ 0 → ∀ err,
        ∃ u f', t.step (.proceed flush err) = some u ∧ u.flushes[flush]? = some f' ∧
          f'.left < f.left := by
  have hstart : (start config now).Conserved := ⟨rfl, nofun, nofun, nofun⟩
  intro t ht
  have hconserved := Lts.forall_trace hstart (fun s event t hs h => conserved_step hs h) events t ht
  refine ⟨hconserved, fun flush f hf hleft err => ?_⟩
  obtain ⟨u, f', hu, -, hf', hless⟩ := conserved_proceed hconserved err hf hleft
  exact ⟨u, f', by rw [step, hf]; exact hu, hf', hless⟩

/-- A limit of one message, and messages that are all alike. -/
def one : BatchingConfig := ⟨1, 100, 1000⟩

def note : BatchMessage := ⟨"m", 0, 1, true, none⟩

/-- Three messages in two flushes. The first flush puts its second message in front, sends both
and calls the first callback. -/
def midway : List BatchingEvent :=
  [.queue note 1, .queue { note with priority := 1 } 2, .flush 3, .queue note 4, .proceed 0 none,
    .flush 5, .proceed 0 none, .proceed 0 none]

theorem batching_conserves_midway : ∃ t ∈ Lts.trace step (start one 0) midway,
    t.flushes.map Flush.left = [1, 3] ∧ t.calls = [⟨0, { note with priority := 1 }, none⟩] ∧
      t.Conserved ∧ ∀ flush f, t.flushes[flush]? = some f → f.left ≠ 0 → ∀ err,
        ∃ u f', t.step (.proceed flush err) = some u ∧ u.flushes[flush]? = some f' ∧
          f'.left < f.left :=
  ⟨(Lts.exec step (start one 0) midway).get rfl, by decide, by decide, by decide,
    batching_conserves one 0 midway _ (by decide)⟩

/-! ## The size of a batch -/

/-- No batch is over the limit. -/
def WithinLimit (s : BatchingRun) : Prop :=
  ∀ f ∈ s.flushes, (f.messages.length : Int) ≤ s.batcher.config.maxBatchSize

/-- A flush starts when no more messages than that have been accepted since the last one. -/
def InTime (s : BatchingRun) : BatchingEvent → Prop
  | .flush _ => (s.sinceFlush : Int) ≤ s.batcher.config.maxBatchSize
  | _ => True

instance decidableInTime (s : BatchingRun) : ∀ event, Decidable (s.InTime event) := fun event => by
  cases event <;> dsimp only [InTime] <;> infer_instance

/-- The messages since the last flush are the pending ones. -/
structure Counts (config : BatchingConfig) (s : BatchingRun) : Prop where
  config : s.batcher.config = config
  pending : s.sinceFlush = s.batcher.pendingMsgs.length

/-- A step keeps the batches within the limit exactly if it is in time. -/
theorem within_limit_step {config : BatchingConfig} (hmax : 0 ≤ config.maxBatchSize)
    (hs : s.Counts config) {event : BatchingEvent} (h : s.step event = some t) :
    t.Counts config ∧ (s.WithinLimit → (t.WithinLimit ↔ s.InTime event)) := by
  obtain ⟨hconfig, hpending⟩ := hs
  cases event with
  | queue msg now =>
    rw [step, ConnectionBatcher.queueMessage] at h
    split_ifs at h <;> cases h
    all_goals exact ⟨⟨hconfig, by simp [hpending]⟩, fun hs => iff_of_true hs trivial⟩
  | receive =>
    rw [step] at h
    split at h <;> cases h
    exact ⟨⟨hconfig, hpending⟩, fun hs => iff_of_true hs trivial⟩
  | flush now =>
    rw [step] at h
    split at h
    · next hnone =>
      cases h
      refine ⟨⟨hconfig, hpending⟩, fun hs => iff_of_true hs ?_⟩
      show (s.sinceFlush : Int) ≤ s.batcher.config.maxBatchSize
      rw [hpending, hnone, hconfig]
      exact hmax
    · cases h
      refine ⟨⟨hconfig, rfl⟩, fun hs => ?_⟩
      rw [WithinLimit, forall_mem_append, forall_mem_singleton, InTime, hpending]
      exact and_iff_right hs
  | proceed flush err =>
    obtain ⟨f, hf, h⟩ := bind_eq_some_iff.mp h
    -- the batch keeps its length
    obtain ⟨f', calls, hlength, rfl⟩ : ∃ f' calls, f'.messages.length = f.messages.length ∧
        t = { s with flushes := s.flushes.set flush f', calls := calls } := by
      rw [proceed] at h
      split at h
      · exact ⟨_, _, (bubbleSort_stable _ f.messages).perm.length_eq, (some.inj h).symm⟩
      · refine ⟨_, _, ?_, (some.inj h).symm⟩
        rfl
      obtain ⟨msg, -, h⟩ := bind_eq_some_iff.mp h
      refine ⟨_, _, ?_, (some.inj h).symm⟩
      rfl
    refine ⟨⟨hconfig, hpending⟩, fun hs => iff_of_true (fun g hg => ?_) trivial⟩
    rcases mem_or_eq_of_mem_set hg with hg | rfl
    · exact hs g hg
    · exact hlength ▸ hs f (mem_of_getElem? hf)

/-- **When batches stay within the limit**, over every interleaving. -/
theorem within_limit_iff (config : BatchingConfig) (hmax : 1 ≤ config.maxBatchSize) (now : Int)
    (events : List BatchingEvent) :
    (∀ t ∈ Lts.trace step (start config now) events, t.WithinLimit) ↔
      Lts.Along step InTime (start config now) events := by
  have hmax : 0 ≤ config.maxBatchSize := by omega
  have hinv : ∀ s event t, Counts config s → step s event = some t → Counts config t :=
    fun s event t hs h => (within_limit_step hmax hs h).1
  refine Lts.forall_trace_iff_along hinv ?_ ?_ events _ ⟨rfl, rfl⟩ nofun
  · intro s event t hs hwithin hok h
    exact ((within_limit_step hmax hs h).2 hwithin).mpr hok
  intro s event hs hwithin hlate
  cases h : s.step event with
  | none =>
    cases event with
    | flush now =>
      rw [step] at h
      split at h <;> cases h
    | _ => exact absurd trivial hlate
  | some t =>
    exact ⟨t, rfl, fun hnext => hlate (((within_limit_step hmax hs h).2 hwithin).mp hnext)⟩

theorem within_limit_one :
    (Lts.exec step (start one 0) [.queue note 1, .receive, .flush 2, .queue note 3]).isSome = true ∧
      ∀ t ∈ Lts.trace step (start one 0) [.queue note 1, .receive, .flush 2, .queue note 3],
        t.WithinLimit :=
  ⟨by decide, (within_limit_iff one (by decide) 0 _).mpr (by decide)⟩

/-- The first message fills the batch and signals the batcher. The second comes before the
flush and is in the same batch. -/
theorem not_within_limit_two :
    (Lts.exec step (start one 0) [.queue note 1, .receive, .queue note 2, .flush 3, .proceed 0 none,
        .proceed 0 none]).map (·.flushes) = some [⟨[note, note], [note, note], .sent none 0⟩] ∧
    ¬([note, note].length : Int) ≤ one.maxBatchSize := by
  decide

end BatchingRun

end DistributedKV.Performance
