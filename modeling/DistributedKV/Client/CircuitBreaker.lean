import DistributedKV.Lib.GoTime
import DistributedKV.Lib.Lts

/-!
# The circuit breaker of the advanced client (`circuit_breaker.go`, `advanced_client.go`)

Every operation of the advanced client asks the breaker, looks for a node and then calls it, and
records how the call ended; one that finds no node returns without a record. A half-open breaker
admits a few operations as a test and refuses the others until the results are in. So there the
operations without a record are more than the admitted tests less the recorded successes
(`Counted`).

What the look-up of a node and the remote call answer, and the clock, are inputs. The counters
that only feed the statistics are left out.
-/

namespace DistributedKV.Client

open List

/-- `CircuitBreakerState`. -/
inductive CircuitBreakerState where
  | closed
  | opened
  | halfOpen
deriving DecidableEq, Repr

/-- `CircuitBreaker`. -/
structure CircuitBreaker where
  state : CircuitBreakerState
  failureCount : Int
  successCount : Int
  lastFailureTime : Int
  halfOpenRequests : Int
  failureThreshold : Int
  recoveryTimeout : Int64
  halfOpenMaxRequests : Int
deriving DecidableEq, Repr

/-- What `NewCircuitBreaker` reads of `AdvancedClientConfig`. -/
structure BreakerConfig where
  failureThreshold : Int
  recoveryTimeout : Int64
  halfOpenMaxRequests : Int

/-- `NewCircuitBreaker`. -/
def newCircuitBreaker (config : BreakerConfig) : CircuitBreaker where
  state := .closed
  failureCount := 0
  successCount := 0
  lastFailureTime := 0
  halfOpenRequests := 0
  failureThreshold := config.failureThreshold
  recoveryTimeout := config.recoveryTimeout
  halfOpenMaxRequests := config.halfOpenMaxRequests

namespace CircuitBreaker

variable (cb : CircuitBreaker)

/-- `transitionToClosed`. -/
def transitionToClosed : CircuitBreaker :=
  { cb with state := .closed, failureCount := 0, successCount := 0, halfOpenRequests := 0 }

/-- `transitionToOpen`. -/
def transitionToOpen : CircuitBreaker :=
  { cb with state := .opened, successCount := 0, halfOpenRequests := 0 }

/-- `transitionToHalfOpen`. -/
def transitionToHalfOpen : CircuitBreaker :=
  { cb with state := .halfOpen, successCount := 0, halfOpenRequests := 0 }

/-- `CanExecute`. The request that makes the breaker half-open is not counted. -/
def canExecute (now : Int) : CircuitBreaker × Bool :=
  match cb.state with
  | .closed => (cb, true)
  | .opened =>
    if Time.sub now cb.lastFailureTime ≥ cb.recoveryTimeout then (cb.transitionToHalfOpen, true)
    else (cb, false)
  | .halfOpen =>
    if cb.halfOpenRequests < cb.halfOpenMaxRequests then
      ({ cb with halfOpenRequests := cb.halfOpenRequests + 1 }, true)
    else (cb, false)

/-- `RecordSuccess`. -/
def recordSuccess : CircuitBreaker :=
  let cb := { cb with successCount := cb.successCount + 1 }
  match cb.state with
  | .halfOpen => if cb.successCount ≥ cb.halfOpenMaxRequests then cb.transitionToClosed else cb
  | .closed => if cb.failureCount > 0 then { cb with failureCount := 0 } else cb
  | .opened => cb

/-- `RecordFailure`. -/
def recordFailure (now : Int) : CircuitBreaker :=
  let cb := { cb with failureCount := cb.failureCount + 1, lastFailureTime := now }
  match cb.state with
  | .closed => if cb.failureCount ≥ cb.failureThreshold then cb.transitionToOpen else cb
  | .halfOpen => cb.transitionToOpen
  | .opened => cb

end CircuitBreaker

/-! ## Operations in flight -/

/-- `OperationType`, as far as an operation of it goes through the breaker. -/
inductive OperationType where
  | get
  | put
  | delete
deriving DecidableEq, Repr

/-- Where an admitted operation is: it looks for a node, calls it, or has returned. -/
inductive OperationPhase where
  | selecting
  | executing
  | returned (error : Option String)
deriving DecidableEq, Repr

/-- An operation that the breaker admitted, and how many results it has recorded. -/
structure AdmittedOperation where
  type : OperationType
  phase : OperationPhase
  records : Nat
deriving DecidableEq, Repr

/-- The breaker of a client and the operations it has admitted. -/
structure BreakerSystem where
  circuitBreakerEnabled : Bool
  breaker : CircuitBreaker
  operations : List AdmittedOperation

/-- An operation is begun; the look-up of its node ends; its call ends. -/
inductive BreakerAction where
  | begin (type : OperationType) (now : Int)
  | select (operation : Nat) (error : Option String)
  | finish (operation : Nat) (error : Option String) (now : Int)

/-- The error of an operation that finds no node: a get selects nodes for the read, the others
ask for the leader. -/
def selectError (type : OperationType) (err : String) : String :=
  match type with
  | .get => "failed to select nodes: " ++ err
  | .put => "failed to get leader: " ++ err
  | .delete => "failed to get leader: " ++ err

namespace BreakerSystem

variable (s : BreakerSystem)

/-- An operation is admitted, by a breaker that is then `cb`. -/
def enter (type : OperationType) (cb : CircuitBreaker) : BreakerSystem :=
  { s with breaker := cb, operations := s.operations ++ [⟨type, .selecting, 0⟩] }

/-- An operation goes on. -/
def update (operation : Nat) (op : AdmittedOperation) : BreakerSystem :=
  { s with operations := s.operations.set operation op }

/-- The end of the three `execute…Operation`: the result of the call is recorded. -/
def record (operation : Nat) (op : AdmittedOperation) (error : Option String)
    (now : Int) : BreakerSystem :=
  if s.circuitBreakerEnabled then
    { s.update operation { op with phase := .returned error, records := op.records + 1 } with
      breaker := match error with
        | some _ => s.breaker.recordFailure now
        | none => s.breaker.recordSuccess }
  else s.update operation { op with phase := .returned error }

/-- One action. A refused operation returns at once. -/
def step : BreakerAction → Option BreakerSystem
  | .begin type now =>
    if s.circuitBreakerEnabled then
      match s.breaker.canExecute now with
      | (cb, true) => some (s.enter type cb)
      | (cb, false) => some { s with breaker := cb }
    else some (s.enter type s.breaker)
  | .select operation error =>
    match s.operations[operation]? with
    | some op =>
      if op.phase = .selecting then
        match error with
        | some err =>
          some (s.update operation
            { op with phase := .returned (some (selectError op.type err)) })
        | none => some (s.update operation { op with phase := .executing })
      else none
    | none => none
  | .finish operation error now =>
    match s.operations[operation]? with
    | some op => if op.phase = .executing then some (s.record operation op error now) else none
    | none => none

/-- A new client with the breaker enabled. -/
def start (config : BreakerConfig) : BreakerSystem :=
  { circuitBreakerEnabled := true, breaker := newCircuitBreaker config, operations := [] }

/-- The operation has returned. -/
def Returned (op : AdmittedOperation) : Prop := ∃ error, op.phase = .returned error

/-- Each operation that has returned has recorded one result, and a half-open breaker that
refuses has an operation in flight. -/
structure Accounted (s : BreakerSystem) : Prop where
  recorded : ∀ op ∈ s.operations, Returned op → op.records = 1
  inFlight : s.breaker.state = .halfOpen → ∀ now, (s.breaker.canExecute now).2 = false →
    ∃ op ∈ s.operations, ¬Returned op

/-- An admitted operation finds its node. -/
def FindsNode : BreakerAction → Prop
  | .select operation error =>
    (∃ op, s.operations[operation]? = some op ∧ op.phase = .selecting) → error = none
  | _ => True

/-- How many operations have not recorded a result. -/
def unrecorded : Nat := s.operations.countP fun op => op.records = 0

/-- The slots of a half-open breaker are accounted for by the operations. -/
structure Counted (s : BreakerSystem) : Prop where
  enabled : s.circuitBreakerEnabled = true
  pending : ∀ op ∈ s.operations, ¬Returned op → op.records = 0
  requests : 0 ≤ s.breaker.halfOpenRequests
  slots : s.breaker.state = .halfOpen →
    s.breaker.halfOpenRequests < s.breaker.successCount + s.unrecorded
  successes : s.breaker.state = .halfOpen →
    s.breaker.successCount = 0 ∨ s.breaker.successCount < s.breaker.halfOpenMaxRequests

/-- What a step does to the operations and to the breaker. -/
inductive Moves (s : BreakerSystem) : BreakerAction → BreakerSystem → Prop where
  | enter {type : OperationType} {now : Int} (h : (s.breaker.canExecute now).2 = true) :
    Moves s (.begin type now) (s.enter type (s.breaker.canExecute now).1)
  | refuse {type : OperationType} {now : Int} (h : (s.breaker.canExecute now).2 = false) :
    Moves s (.begin type now) s
  | lost {operation : Nat} {err : String} {op : AdmittedOperation}
      (hop : s.operations[operation]? = some op)
      (hphase : op.phase = .selecting) :
    Moves s (.select operation (some err))
      (s.update operation { op with phase := .returned (some (selectError op.type err)) })
  | found {operation : Nat} {op : AdmittedOperation}
      (hop : s.operations[operation]? = some op)
      (hphase : op.phase = .selecting) :
    Moves s (.select operation none) (s.update operation { op with phase := .executing })
  | fail {operation : Nat} {err : String} {now : Int} {op : AdmittedOperation}
      (hop : s.operations[operation]? = some op)
      (hphase : op.phase = .executing) :
    Moves s (.finish operation (some err) now)
      { s.update operation { op with phase := .returned (some err), records := op.records + 1 } with
        breaker := s.breaker.recordFailure now }
  | succeed {operation : Nat} {now : Int} {op : AdmittedOperation}
      (hop : s.operations[operation]? = some op)
      (hphase : op.phase = .executing) :
    Moves s (.finish operation none now)
      { s.update operation { op with phase := .returned none, records := op.records + 1 } with
        breaker := s.breaker.recordSuccess }

section Steps

variable {s t : BreakerSystem} {action : BreakerAction} {operation : Nat}
  {op op' : AdmittedOperation}

variable (cb : CircuitBreaker) {now : Int} {type : OperationType} {error : Option String}

open CircuitBreaker

/-- A request is refused and the breaker left as it is, or it is admitted in one of three ways. -/
theorem canExecute_cases (cb : CircuitBreaker) (now : Int) :
    cb.canExecute now = (cb, false) ∨ (cb.state = .closed ∧ cb.canExecute now = (cb, true)) ∨
    cb.canExecute now = (cb.transitionToHalfOpen, true) ∨ (cb.state = .halfOpen ∧
      cb.canExecute now = ({ cb with halfOpenRequests := cb.halfOpenRequests + 1 }, true)) := by
  rw [canExecute]
  cases hstate : cb.state with
  | closed => exact Or.inr (Or.inl ⟨rfl, rfl⟩)
  | opened =>
    dsimp only
    split
    · exact Or.inr (Or.inr (Or.inl rfl))
    · exact Or.inl rfl
  | halfOpen =>
    dsimp only
    split
    · exact Or.inr (Or.inr (Or.inr ⟨rfl, rfl⟩))
    · exact Or.inl rfl

/-- An operation enters or is refused. A breaker that refuses is left as it is. -/
theorem moves_of_begin (henabled : s.circuitBreakerEnabled = true)
    (h : s.step (.begin type now) = some t) : s.Moves (.begin type now) t := by
  rw [step, if_pos henabled] at h
  cases hexec : s.breaker.canExecute now with
  | mk cb admitted =>
    rw [hexec] at h
    cases admitted with
    | true =>
      have hmove : s.Moves (.begin type now) _ := .enter (by rw [hexec])
      rw [hexec] at hmove
      exact Option.some.inj h ▸ hmove
    | false =>
      have hadmitted : (s.breaker.canExecute now).2 = false := by rw [hexec]
      have hcb : cb = s.breaker := by
        rcases canExecute_cases s.breaker now with heq | ⟨-, heq⟩ | heq | ⟨-, heq⟩ <;>
          cases hexec.symm.trans heq
        rfl
      rw [hcb] at h
      exact Option.some.inj h ▸ .refuse hadmitted

theorem moves_of_select (h : s.step (.select operation error) = some t) :
    s.Moves (.select operation error) t := by
  rw [step] at h
  cases hop : s.operations[operation]? with
  | none =>
    rw [hop] at h
    cases h
  | some op =>
    rw [hop] at h
    dsimp only at h
    split at h
    · next hphase =>
      cases error with
      | none => exact Option.some.inj h ▸ .found hop hphase
      | some err => exact Option.some.inj h ▸ .lost hop hphase
    · cases h

theorem moves_of_finish (henabled : s.circuitBreakerEnabled = true)
    (h : s.step (.finish operation error now) = some t) :
    s.Moves (.finish operation error now) t := by
  rw [step] at h
  cases hop : s.operations[operation]? with
  | none =>
    rw [hop] at h
    cases h
  | some op =>
    rw [hop] at h
    dsimp only at h
    split at h
    · next hphase =>
      cases h
      unfold record
      rw [if_pos henabled]
      cases error with
      | none => exact .succeed hop hphase
      | some err => exact .fail hop hphase
    · cases h

theorem moves_of_step (henabled : s.circuitBreakerEnabled = true) (h : s.step action = some t) :
    s.Moves action t := by
  cases action with
  | begin type now => exact moves_of_begin henabled h
  | select operation error => exact moves_of_select h
  | finish operation error now => exact moves_of_finish henabled h

theorem unrecorded_enter (type : OperationType) (cb : CircuitBreaker) :
    (s.enter type cb).unrecorded = s.unrecorded + 1 := by
  rw [unrecorded, enter, countP_append, unrecorded]
  rfl

theorem unrecorded_update (op' : AdmittedOperation) (hop : s.operations[operation]? = some op) :
    (s.update operation op').unrecorded + (if op.records = 0 then 1 else 0) =
      s.unrecorded + if op'.records = 0 then 1 else 0 := by
  obtain ⟨hlt, hget⟩ := List.getElem?_eq_some_iff.mp hop
  have hpos : op.records = 0 → 0 < s.operations.countP fun op => op.records = 0 := fun hzero =>
    countP_pos_iff.mpr ⟨op, mem_of_getElem? hop, decide_eq_true hzero⟩
  rw [unrecorded, update, countP_set hlt, hget, unrecorded]
  simp only [decide_eq_true_eq]
  split_ifs <;> omega

/-- A failure does not leave the breaker half-open. -/
theorem recordFailure_spec (now : Int) : (cb.recordFailure now).state ≠ .halfOpen ∧
      ((cb.recordFailure now).halfOpenRequests = 0 ∨
        (cb.recordFailure now).halfOpenRequests = cb.halfOpenRequests) := by
  rw [recordFailure]
  cases hstate : cb.state with
  | closed =>
    dsimp only
    split
    · exact ⟨nofun, Or.inl rfl⟩
    · simp
  | opened => simp
  | halfOpen => exact ⟨nofun, Or.inl rfl⟩

/-- After a success the breaker is half-open only if it was and the success is counted. -/
theorem recordSuccess_spec : (cb.recordSuccess.halfOpenRequests = 0 ∨
      cb.recordSuccess.halfOpenRequests = cb.halfOpenRequests) ∧
    (cb.recordSuccess.state = .halfOpen → cb.state = .halfOpen ∧
      cb.successCount + 1 < cb.halfOpenMaxRequests ∧
      cb.recordSuccess = { cb with successCount := cb.successCount + 1 }) := by
  rw [recordSuccess]
  cases hstate : cb.state with
  | closed =>
    dsimp only
    split <;> simp
  | opened => simp
  | halfOpen =>
    dsimp only
    split
    · exact ⟨Or.inl rfl, nofun⟩
    · next hfew => exact ⟨Or.inr rfl, fun _ => ⟨rfl, by omega, rfl⟩⟩

theorem forall_update {P : AdmittedOperation → Prop} (hs : ∀ op ∈ s.operations, P op)
    (hop' : P op') : ∀ op ∈ (s.update operation op').operations, P op := by
  intro other hmem
  rcases mem_or_eq_of_mem_set hmem with hmem | rfl
  · exact hs other hmem
  · exact hop'

section

variable (hs : s.Counted)
include hs

theorem Counted.records_eq_zero (hop : s.operations[operation]? = some op)
    (hphase : op.phase = .selecting ∨ op.phase = .executing) : op.records = 0 := by
  refine hs.pending op (mem_of_getElem? hop) ?_
  rintro ⟨error, hreturned⟩
  rw [hreturned] at hphase
  rcases hphase with h | h <;> cases h

/-- An operation is admitted. Its slot is taken by an operation without a record. -/
theorem Counted.enter (hadmitted : (s.breaker.canExecute now).2 = true) :
    (s.enter type (s.breaker.canExecute now).1).Counted := by
  have hcount := unrecorded_enter (s := s) type (s.breaker.canExecute now).1
  have hpending : ∀ op ∈ (s.enter type (s.breaker.canExecute now).1).operations, ¬Returned op →
      op.records = 0 :=
    forall_mem_append.mpr ⟨hs.pending, forall_mem_singleton.mpr fun _ => rfl⟩
  rcases canExecute_cases s.breaker now with heq | ⟨hclosed, heq⟩ | heq | ⟨hhalf, heq⟩
  · rw [heq] at hadmitted
    cases hadmitted
  · rw [heq] at hcount hpending ⊢
    refine ⟨hs.enabled, hpending, hs.requests, ?_, ?_⟩ <;>
      exact fun hhalf => absurd (hclosed.symm.trans hhalf) nofun
  · -- the operation that makes the breaker half-open is not counted as a test
    rw [heq] at hcount hpending ⊢
    refine ⟨hs.enabled, hpending, le_rfl, fun _ => ?_, fun _ => Or.inl rfl⟩
    show (0 : Int) < 0 + ((s.enter type _).unrecorded : Nat)
    omega
  rw [heq] at hcount hpending ⊢
  have hslots := hs.slots hhalf
  have hrequests := hs.requests
  refine ⟨hs.enabled, hpending, ?_, fun _ => ?_, fun _ => hs.successes hhalf⟩
  · show 0 ≤ s.breaker.halfOpenRequests + 1
    omega
  show s.breaker.halfOpenRequests + 1 <
    s.breaker.successCount + ((s.enter type _).unrecorded : Nat)
  omega

/-- A success is recorded: one operation without a record less, one success more. -/
theorem Counted.succeed (hop : s.operations[operation]? = some op)
    (hphase : op.phase = .executing) :
    Counted { s.update operation { op with phase := .returned none, records := op.records + 1 } with
      breaker := s.breaker.recordSuccess } := by
  have hzero := hs.records_eq_zero hop (Or.inr hphase)
  obtain ⟨hrequests, hhalfOpen⟩ := recordSuccess_spec s.breaker
  refine ⟨hs.enabled, forall_update hs.pending fun hnot => absurd ⟨_, rfl⟩ hnot, ?_,
    fun hhalf => ?_, fun hhalf => ?_⟩
  · have hold := hs.requests
    show 0 ≤ s.breaker.recordSuccess.halfOpenRequests
    omega
  · obtain ⟨hstate, -, heq⟩ := hhalfOpen hhalf
    have hslots := hs.slots hstate
    have hless := unrecorded_update
      { op with phase := .returned none, records := op.records + 1 } hop
    rw [if_pos hzero, if_neg (Nat.succ_ne_zero _)] at hless
    show s.breaker.recordSuccess.halfOpenRequests < s.breaker.recordSuccess.successCount +
      ((s.update operation _).unrecorded : Nat)
    rw [heq]
    show s.breaker.halfOpenRequests < s.breaker.successCount + 1 + _
    omega
  · obtain ⟨-, hmax, heq⟩ := hhalfOpen hhalf
    rw [heq]
    exact Or.inr hmax

theorem counted_step (h : s.step action = some t) : t.Counted := by
  have hmoves := moves_of_step hs.enabled h
  cases hmoves with
  | enter hadmitted => exact hs.enter hadmitted
  | refuse => exact hs
  | @lost operation err op hop hphase =>
    refine ⟨hs.enabled, forall_update hs.pending fun hnot => absurd ⟨_, rfl⟩ hnot, hs.requests,
      fun hhalf => ?_, hs.successes⟩
    have hsame :=
      unrecorded_update { op with phase := .returned (some (selectError op.type err)) } hop
    rw [Nat.add_right_cancel hsame]
    exact hs.slots hhalf
  | @found operation op hop hphase =>
    have hzero := hs.records_eq_zero hop (Or.inl hphase)
    refine ⟨hs.enabled, forall_update hs.pending fun _ => hzero, hs.requests,
      fun hhalf => ?_, hs.successes⟩
    have hsame := unrecorded_update { op with phase := .executing } hop
    rw [Nat.add_right_cancel hsame]
    exact hs.slots hhalf
  | @fail operation err now op hop hphase =>
    -- a failure opens the breaker or leaves it closed or open
    obtain ⟨hstate, hrequests⟩ := recordFailure_spec s.breaker now
    refine ⟨hs.enabled, forall_update hs.pending fun hnot => absurd ⟨_, rfl⟩ hnot, ?_,
      fun hhalf => absurd hhalf hstate, fun hhalf => absurd hhalf hstate⟩
    have hold := hs.requests
    show 0 ≤ (s.breaker.recordFailure now).halfOpenRequests
    omega
  | succeed hop hphase => exact hs.succeed hop hphase

/-- Given the count, it is enough that returned operations have their record. -/
theorem accounted_of_recorded
    (hrecorded : ∀ op ∈ s.operations, Returned op → op.records = 1) : s.Accounted := by
  refine ⟨hrecorded, fun hhalf now hrefused => ?_⟩
  have hfull : ¬s.breaker.halfOpenRequests < s.breaker.halfOpenMaxRequests := by
    intro hroom
    rw [canExecute, hhalf] at hrefused
    rw [if_pos hroom] at hrefused
    cases hrefused
  have hslots := hs.slots hhalf
  have hrequests := hs.requests
  have hpos : 0 < s.unrecorded := by
    rcases hs.successes hhalf with hnone | hfew <;> omega
  obtain ⟨op, hmem, hzero⟩ := countP_pos_iff.mp hpos
  refine ⟨op, hmem, fun hreturned => ?_⟩
  rw [decide_eq_true_iff, hrecorded op hmem hreturned] at hzero
  cases hzero

theorem accounted_step (hgood : s.Accounted) (hfinds : s.FindsNode action)
    (h : s.step action = some t) : t.Accounted := by
  refine accounted_of_recorded (counted_step hs h) ?_
  have hmoves := moves_of_step hs.enabled h
  cases hmoves with
  | enter =>
    intro op hmem hreturned
    rcases mem_append.mp hmem with hmem | hmem
    · exact hgood.recorded op hmem hreturned
    rw [mem_singleton.mp hmem] at hreturned
    obtain ⟨error, herror⟩ := hreturned
    cases herror
  | refuse => exact hgood.recorded
  | lost hop hphase => exact absurd (hfinds ⟨_, hop, hphase⟩) nofun
  | found =>
    refine forall_update hgood.recorded ?_
    rintro ⟨error, herror⟩
    cases herror
  | fail hop hphase | succeed hop hphase =>
    refine forall_update hgood.recorded fun _ => ?_
    exact congrArg (· + 1) (hs.records_eq_zero hop (Or.inr hphase))

/-- An admitted operation that finds no node returns without a record. -/
theorem not_accounted_step (hfinds : ¬s.FindsNode action) :
    ∃ t, s.step action = some t ∧ ¬t.Accounted := by
  cases action with
  | select operation error =>
    simp only [FindsNode, Classical.not_imp] at hfinds
    obtain ⟨⟨op, hop, hphase⟩, herror⟩ := hfinds
    cases error with
    | none => exact absurd rfl herror
    | some err =>
      obtain ⟨hlt, -⟩ := List.getElem?_eq_some_iff.mp hop
      refine ⟨_, by rw [step, hop]; exact if_pos hphase, fun haccounted => ?_⟩
      have hone := haccounted.recorded _ (mem_set hlt _) ⟨_, rfl⟩
      have hzero := hs.records_eq_zero hop (Or.inl hphase)
      exact absurd (hzero.symm.trans hone) nofun
  | _ => exact absurd trivial hfinds

end

theorem counted_start (config : BreakerConfig) : (start config).Counted where
  enabled := rfl
  pending := nofun
  requests := le_rfl
  slots := nofun
  successes := nofun

end Steps

/-- **Records of the breaker.** In every state of every run with the breaker enabled, each
operation that has returned has recorded one result and a half-open breaker that refuses has an
operation in flight, exactly if every admitted operation finds its node. -/
theorem accounted_iff (config : BreakerConfig) (actions : List BreakerAction) :
    (∀ t ∈ Lts.trace step (start config) actions, t.Accounted) ↔
      Lts.Along step FindsNode (start config) actions := by
  have hstart : (start config).Accounted := accounted_of_recorded (counted_start config) nofun
  have hinv : ∀ s a t, Counted s → s.step a = some t → Counted t :=
    fun s a t hs h => counted_step hs h
  have hkeep : ∀ s a t, Counted s → s.Accounted → s.FindsNode a → s.step a = some t → t.Accounted :=
    fun s a t hs hgood hfinds h => accounted_step hs hgood hfinds h
  have hbreak : ∀ s a, Counted s → s.Accounted → ¬s.FindsNode a →
      ∃ t, s.step a = some t ∧ ¬t.Accounted :=
    fun s a hs _ hfinds => not_accounted_step hs hfinds
  exact Lts.forall_trace_iff_along hinv hkeep hbreak actions _ (counted_start config) hstart

/-- A breaker that opens at the first failure, recovers after a nanosecond and tests with one
request. -/
def quickConfig : BreakerConfig := ⟨1, 1, 1⟩

/-- A failed put opens the breaker; the next two are its test, find no leader and return without
a record. Nothing is in flight, and every further request is refused. -/
theorem lockout_counterexample : ∃ s, Lts.exec step (start quickConfig)
        [.begin .put 1, .select 0 none, .finish 0 (some "unreachable") 2,
          .begin .put 3, .select 1 (some "no leader"),
          .begin .put 4, .select 2 (some "no leader")] = some s ∧
      s.breaker.state = .halfOpen ∧ (∀ op ∈ s.operations, Returned op) ∧
      s.breaker.canExecute 1000000 = (s.breaker, false) ∧ ¬s.Accounted := by
  refine ⟨_, rfl, rfl, ?_, by decide +kernel, fun h => ?_⟩
  · intro op hmem
    rcases hmem with _ | ⟨_, _ | ⟨_, _ | ⟨_, hmem⟩⟩⟩
    iterate 3 exact ⟨_, rfl⟩
    cases hmem
  · have hone := h.recorded ⟨.put, .returned (some "failed to get leader: no leader"), 0⟩
      (by decide +kernel) ⟨_, rfl⟩
    cases hone

end BreakerSystem

end DistributedKV.Client
