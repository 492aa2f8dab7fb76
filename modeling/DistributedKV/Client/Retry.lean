import Mathlib.Algebra.Order.Ring.Int

/-!
# Calls with retries (`client.go`)

`executeWithRetry` tries a call up to `MaxRetries + 1` times. A try may end the loop at four
places: the context ends during the pause before it, the pool has no connection, the call
succeeds, or it fails with an error that is not retried. What a try meets is an input (`Attempt`);
the calls that are made are recorded (`ClientEvent`).

If `MaxRetries` is negative the loop has no turn, and returns the initial `nil`.
-/

namespace DistributedKV.Client

variable (c : RetryConfig)

open List

/-- An error. `code` is the code of its gRPC status, if `status.FromError` finds one. -/
structure ClientError where
  text : String
  code : Option UInt32

/-- What `executeWithRetry` reads of `Config`; the delays only say how long it sleeps. -/
structure RetryConfig where
  maxRetries : Int64
  retryableErrors : List UInt32

/-- What a try meets: whether the context ends before it, what `GetConnection` answers and what
the call returns (`none` is `nil`). -/
structure Attempt where
  contextDone : Option ClientError
  connection : Except ClientError Nat
  call : Option ClientError

/-- The calls that `executeWithRetry` makes, with what they return. -/
inductive ClientEvent where
  | getConnection (result : Except ClientError Nat)
  | call (result : Option ClientError)
  | putConnection (conn : Nat)

/-- `shouldRetry`, for an error that is not `nil`. -/
def shouldRetry (err : ClientError) : Bool :=
  match err.code with
  | none => false
  | some code => c.retryableErrors.any (code == ·)

/-- `fmt.Errorf("failed to get connection: %w", err)`. -/
def connectionError (err : ClientError) : ClientError :=
  { err with text := "failed to get connection: " ++ err.text }

/-- The loop of `executeWithRetry` from a try on, with the number of turns that are left: the
error that it returns, and what it calls in each try. -/
def retryLoop (c : RetryConfig) (outcomes : Nat → Attempt) :
    Nat → Nat → Option ClientError → Option ClientError × List (List ClientEvent)
  | 0, _, lastErr => (lastErr, [])
  | turns + 1, attempt, _ =>
    match if attempt > 0 then (outcomes attempt).contextDone else none with
    | some err => (some err, [])
    | none =>
      match (outcomes attempt).connection with
      | .error err =>
        let events := [.getConnection (.error err)]
        if shouldRetry c err && attempt < c.maxRetries.toInt then
          let rest := retryLoop c outcomes turns (attempt + 1) (some (connectionError err))
          (rest.1, events :: rest.2)
        else (some (connectionError err), [events])
      | .ok conn =>
        let events := [.getConnection (.ok conn), .call (outcomes attempt).call,
          .putConnection conn]
        match (outcomes attempt).call with
        | none => (none, [events])
        | some err =>
          if !shouldRetry c err || attempt ≥ c.maxRetries.toInt then (some err, [events])
          else
            let rest := retryLoop c outcomes turns (attempt + 1) (some err)
            (rest.1, events :: rest.2)

/-- `executeWithRetry`. -/
def executeWithRetry (closed : Bool) (outcomes : Nat → Attempt) :
    Option ClientError × List (List ClientEvent) :=
  if closed then (some ⟨"client is closed", none⟩, [])
  else retryLoop c outcomes (c.maxRetries.toInt + 1).toNat 0 none

/-! ## The contract -/

/-- The error that an event brings. -/
def ClientEvent.error : ClientEvent → Option ClientError
  | .getConnection (.error err) => some err
  | .call (some err) => some err
  | _ => none

/-- The connection that an event takes from the pool. -/
def ClientEvent.taken : ClientEvent → Option Nat
  | .getConnection (.ok conn) => some conn
  | _ => none

/-- The connection that an event returns to the pool. -/
def ClientEvent.returned : ClientEvent → Option Nat
  | .putConnection conn => some conn
  | _ => none

/-- The try ended with an error whose code is retryable. -/
def EndsRetryable (events : List ClientEvent) : Prop :=
  ∃ err code, events.filterMap ClientEvent.error = [err] ∧ err.code = some code ∧
    code ∈ c.retryableErrors

/-- The contract, with a bound for the number of tries: success is reported only if a call
succeeded; a try that another one follows ended with a retryable error; and the connections that
are taken are returned, in order and each once. -/
structure RetryContract (c : RetryConfig) (bound : Int)
    (run : Option ClientError × List (List ClientEvent)) : Prop where
  success : run.1 = none → .call none ∈ run.2.flatten
  attempts : (run.2.length : Int) ≤ bound
  retries : ∀ events ∈ run.2.dropLast, EndsRetryable c events
  connections : run.2.flatten.filterMap ClientEvent.taken =
    run.2.flatten.filterMap ClientEvent.returned

section Contract

variable {c : RetryConfig} {outcomes : Nat → Attempt} {err : ClientError}
  {events : List ClientEvent} {bound : Int}

theorem shouldRetry_iff : shouldRetry c err = true ↔
    ∃ code, err.code = some code ∧ code ∈ c.retryableErrors := by
  rw [shouldRetry]
  cases err.code with
  | none => simp
  | some code => simp

theorem RetryContract.of_error (hbound : 0 ≤ bound) : RetryContract c bound (some err, []) :=
  ⟨nofun, hbound, nofun, rfl⟩

theorem RetryContract.last {result : Option ClientError} (hbound : 1 ≤ bound)
    (hresult : result = none → .call none ∈ events)
    (hconn : events.filterMap ClientEvent.taken = events.filterMap ClientEvent.returned) :
    RetryContract c bound (result, [events]) := by
  refine ⟨fun h => ?_, hbound, nofun, ?_⟩
  · rw [flatten_singleton]
    exact hresult h
  · rw [flatten_singleton]
    exact hconn

/-- The loop goes on after a try that ended with a retryable error. -/
theorem RetryContract.cons {rest : Option ClientError × List (List ClientEvent)}
    (hrest : RetryContract c bound rest) (hends : EndsRetryable c events)
    (hconn : events.filterMap ClientEvent.taken = events.filterMap ClientEvent.returned) :
    RetryContract c (bound + 1) (rest.1, events :: rest.2) := by
  constructor
  · intro h
    exact mem_append_right _ (hrest.success h)
  · have hlen := hrest.attempts
    rw [length_cons]
    omega
  · intro events' hmem
    cases hcases : rest.2 with
    | nil =>
      rw [hcases] at hmem
      cases hmem
    | cons next others =>
      rw [hcases, dropLast_cons_cons, ← hcases] at hmem
      rcases mem_cons.mp hmem with rfl | hmem
      · exact hends
      · exact hrest.retries events' hmem
  · show (events ++ rest.2.flatten).filterMap _ = (events ++ rest.2.flatten).filterMap _
    rw [filterMap_append, filterMap_append, hconn, hrest.connections]

/-- **The loop keeps the contract** if there is a turn to do or an error to report. -/
theorem retryLoop_contract {turns attempt : Nat} {lastErr : Option ClientError}
    (h : 0 < turns ∨ lastErr ≠ none) :
    RetryContract c turns (retryLoop c outcomes turns attempt lastErr) := by
  induction turns generalizing attempt lastErr with
  | zero =>
    cases lastErr with
    | none => simp at h
    | some err => exact .of_error le_rfl
  | succ turns ih =>
    rw [retryLoop, Nat.cast_succ]
    cases if attempt > 0 then (outcomes attempt).contextDone else none with
    | some err => exact .of_error (by omega)
    | none =>
      cases (outcomes attempt).connection with
      | error err =>
        dsimp only
        split
        · next hretry =>
          rw [Bool.and_eq_true] at hretry
          obtain ⟨code, hcode, hmem⟩ := shouldRetry_iff.mp hretry.1
          exact (ih (Or.inr (Option.some_ne_none _))).cons ⟨err, code, rfl, hcode, hmem⟩ rfl
        · exact .last (by omega) nofun rfl
      | ok conn =>
        cases hcall : (outcomes attempt).call with
        | none => exact .last (by omega) (fun _ => by simp) rfl
        | some err =>
          dsimp only
          split
          · exact .last (by omega) nofun rfl
          next hretry =>
            rw [Bool.or_eq_true, not_or, Bool.not_eq_true', Bool.not_eq_false] at hretry
            obtain ⟨code, hcode, hmem⟩ := shouldRetry_iff.mp hretry.1
            exact (ih (Or.inr (Option.some_ne_none _))).cons ⟨err, code, rfl, hcode, hmem⟩ rfl

end Contract

/-- **The contract of `executeWithRetry`** holds, for every configuration and all outcomes,
exactly if the client is closed or `MaxRetries` is not negative. -/
theorem contract_iff (closed : Bool) (outcomes : Nat → Attempt) :
    RetryContract c (max c.maxRetries.toInt 0 + 1) (executeWithRetry c closed outcomes) ↔
      closed = true ∨ 0 ≤ c.maxRetries.toInt := by
  cases closed with
  | true =>
    refine iff_of_true (.of_error ?_) (Or.inl rfl)
    omega
  | false =>
    show RetryContract c _ (retryLoop c outcomes (c.maxRetries.toInt + 1).toNat 0 none) ↔ _
    constructor <;> intro h
    · right
      by_contra hneg
      -- no turn: `nil` is returned and nothing was called
      have hturns : (c.maxRetries.toInt + 1).toNat = 0 := by omega
      rw [hturns] at h
      cases h.success rfl
    · have hnonneg : 0 ≤ c.maxRetries.toInt := h.resolve_left nofun
      have hturns : ((c.maxRetries.toInt + 1).toNat : Int) = max c.maxRetries.toInt 0 + 1 := by
        omega
      rw [← hturns]
      exact retryLoop_contract (Or.inl (by omega))

/-- With `MaxRetries = -1` nothing is called and `nil` is returned. -/
theorem contract_counterexample :
    executeWithRetry ⟨-1, [14]⟩ false (fun _ => ⟨none, .error ⟨"down", some 14⟩, none⟩) =
      (none, []) ∧
    ¬RetryContract ⟨-1, [14]⟩ 1
      (executeWithRetry ⟨-1, [14]⟩ false fun _ => ⟨none, .error ⟨"down", some 14⟩, none⟩) := by
  have hrun : executeWithRetry ⟨-1, [14]⟩ false
      (fun _ => ⟨none, .error ⟨"down", some 14⟩, none⟩) = (none, []) := by rfl
  refine ⟨hrun, fun h => ?_⟩
  cases h.success rfl

end DistributedKV.Client
