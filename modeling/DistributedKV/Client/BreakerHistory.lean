import DistributedKV.Client.CircuitBreaker

/-!
# The circuit breaker seen from outside (`circuit_breaker.go`)

The counters of the breaker serve all three states, and a result may be recorded in any of
them, however long ago its request was admitted. A half-open episode admits one request more than
it counts, the one that began it, and counts any success.
-/

namespace DistributedKV.Client

open List

/-- The calls on a breaker. -/
inductive BreakerCall where
  | canExecute
  | recordSuccess
  | recordFailure
deriving DecidableEq, Repr

/-- The breaker after a call. -/
def CircuitBreaker.apply (cb : CircuitBreaker) (now : Int) : BreakerCall → CircuitBreaker
  | .canExecute => (cb.canExecute now).1
  | .recordSuccess => cb.recordSuccess
  | .recordFailure => cb.recordFailure now

/-! ## Failures and the clock -/

/-- A breaker and what an observer remembers: the failures since the breaker last closed or
last recorded a success, and when the last failure was recorded. -/
structure WatchedBreaker where
  breaker : CircuitBreaker
  failures : Nat
  lastFailure : Option Int

namespace WatchedBreaker

/-- The observer sees a call. -/
def observe (w : WatchedBreaker) (call : BreakerCall × Int) : WatchedBreaker :=
  let breaker := w.breaker.apply call.2 call.1
  { breaker := breaker
    failures :=
      if call.1 = .recordSuccess ∨ (w.breaker.state ≠ .closed ∧ breaker.state = .closed) then 0
      else if call.1 = .recordFailure then w.failures + 1
      else w.failures
    lastFailure := if call.1 = .recordFailure then some call.2 else w.lastFailure }

/-- After a history of calls with the times at which they were made. -/
def after (config : BreakerConfig) (history : List (BreakerCall × Int)) : WatchedBreaker :=
  history.foldl observe ⟨newCircuitBreaker config, 0, none⟩

/-- **The counters and the history.** `failureCount` is what the observer counts while the
breaker is closed. An open breaker has recorded a failure. -/
structure Sound (config : BreakerConfig) (w : WatchedBreaker) : Prop where
  threshold : w.breaker.failureThreshold = config.failureThreshold
  timeout : w.breaker.recoveryTimeout = config.recoveryTimeout
  closed : w.breaker.state = .closed →
    w.breaker.failureCount = w.failures ∧ (w.failures : Int) < config.failureThreshold
  opened : w.breaker.state = .opened → w.lastFailure = some w.breaker.lastFailureTime

variable {config : BreakerConfig} {w : WatchedBreaker}

open CircuitBreaker

theorem sound_observe (hthreshold : 1 ≤ config.failureThreshold) (hw : Sound config w)
    (call : BreakerCall) (now : Int) :
    Sound config (w.observe (call, now)) ∧ (w.breaker.state = .closed →
      ((w.observe (call, now)).breaker.state = .opened ↔
        ((w.observe (call, now)).failures : Int) = config.failureThreshold)) := by
  obtain ⟨hth, hto, hclosed, hopened⟩ := hw
  cases call with
  | canExecute =>
    unfold observe apply canExecute
    cases hstate : w.breaker.state with
    | closed =>
      have := hclosed hstate
      exact ⟨⟨hth, hto, by simpa using hclosed, by simp [hstate]⟩, by simp [hstate]; omega⟩
    | opened =>
      dsimp only
      split
      · exact ⟨⟨hth, hto, nofun, nofun⟩, nofun⟩
      · exact ⟨⟨hth, hto, by simp [hstate], by simpa using hopened⟩, nofun⟩
    | halfOpen =>
      dsimp only
      split
      · exact ⟨⟨hth, hto, by simp, by simp⟩, nofun⟩
      · exact ⟨⟨hth, hto, by simp [hstate], by simp [hstate]⟩, nofun⟩
  | recordSuccess =>
    have hzero : (0 : Int) < config.failureThreshold := by omega
    unfold observe apply recordSuccess
    cases hstate : w.breaker.state with
    | closed =>
      have := hclosed hstate
      dsimp only
      split
      · exact ⟨⟨hth, hto, by simpa using hzero, by simp⟩, by simp; omega⟩
      refine ⟨⟨hth, hto, ?_, by simp⟩, by simp; omega⟩
      simp
      omega
    | opened => exact ⟨⟨hth, hto, by simp, by simpa [hstate] using hopened⟩, nofun⟩
    | halfOpen =>
      dsimp only
      split
      · exact ⟨⟨hth, hto, by simpa [transitionToClosed] using hzero, nofun⟩, nofun⟩
      · exact ⟨⟨hth, hto, by simp, by simp⟩, nofun⟩
  | recordFailure =>
    unfold observe apply recordFailure
    cases hstate : w.breaker.state with
    | closed =>
      have := hclosed hstate
      dsimp only
      split
      · exact ⟨⟨hth, hto, nofun, by simp [transitionToOpen]⟩, by simp [transitionToOpen]; omega⟩
      · exact ⟨⟨hth, hto, by simp; omega, by simp⟩, by simp; omega⟩
    | opened => exact ⟨⟨hth, hto, by simp, by simp⟩, nofun⟩
    | halfOpen => exact ⟨⟨hth, hto, nofun, by simp [transitionToOpen]⟩, nofun⟩

/-- Every history leaves the counters as the observer counts, and the last failure is not
later than the last call. -/
theorem sound_after (hthreshold : 1 ≤ config.failureThreshold)
    (history : List (BreakerCall × Int)) : Sound config (after config history) ∧
      ∀ last ∈ (after config history).lastFailure, last ∈ history.map Prod.snd := by
  induction history using List.reverseRecOn with
  | nil =>
    refine ⟨⟨rfl, rfl, fun _ => ⟨rfl, ?_⟩, nofun⟩, nofun⟩
    exact hthreshold
  | append_singleton history call ih =>
    rw [after, foldl_append, map_append]
    refine ⟨(sound_observe hthreshold ih.1 call.1 call.2).1, fun last hlast => ?_⟩
    simp only [foldl_cons, foldl_nil, observe] at hlast
    split at hlast
    · simp_all
    · exact mem_append_left _ (ih.2 last hlast)

/-- **The circuit breaker**, at any call of any history. -/
theorem breaker_core (config : BreakerConfig) (hthreshold : 1 ≤ config.failureThreshold)
    (history : List (BreakerCall × Int)) (call : BreakerCall) (now : Int)
    (hclock : ((history ++ [(call, now)]).map Prod.snd).Pairwise (· ≤ ·)) :
    ((after config history).breaker.state = .closed →
      ((after config (history ++ [(call, now)])).breaker.state = .opened ↔
        ((after config (history ++ [(call, now)])).failures : Int) = config.failureThreshold)) ∧
    ((after config history).breaker.state = .opened →
      ((after config history).breaker.canExecute now).2 = true →
        ∃ last, (after config history).lastFailure = some last ∧
          config.recoveryTimeout.toInt ≤ now - last) := by
  obtain ⟨hsound, hlast⟩ := sound_after hthreshold history
  have hnext : after config (history ++ [(call, now)]) =
      (after config history).observe (call, now) := by
    rw [after, foldl_append]
    rfl
  refine ⟨fun hclosed => ?_, fun hopened hadmits => ?_⟩
  · rw [hnext]
    exact (sound_observe hthreshold hsound call now).2 hclosed
  have hfailure := hsound.opened hopened
  refine ⟨_, hfailure, ?_⟩
  rw [map_append, pairwise_append] at hclock
  have hle := hclock.2.2 _ (hlast _ hfailure) now (by simp)
  rw [canExecute, hopened] at hadmits
  dsimp only at hadmits
  split at hadmits
  · next htimeout =>
    rw [hsound.timeout] at htimeout
    exact (Int64.le_iff_toInt_le.mp htimeout).trans (Time.sub_le hle)
  · cases hadmits

/-- A breaker that opens at the second failure, and admits a request ten units later. -/
theorem breaker_core_two : ((after ⟨2, 10, 1⟩ [(.recordFailure, 0)]).breaker.state = .closed →
      ((after ⟨2, 10, 1⟩ [(.recordFailure, 0), (.recordFailure, 3)]).breaker.state = .opened ↔
        ((after ⟨2, 10, 1⟩ [(.recordFailure, 0), (.recordFailure, 3)]).failures : Int) = 2)) ∧
    ∃ last, (after ⟨2, 10, 1⟩ [(.recordFailure, 0), (.recordFailure, 3)]).lastFailure = some last ∧
      (10 : Int64).toInt ≤ 13 - last :=
  ⟨(breaker_core ⟨2, 10, 1⟩ (by decide) [(.recordFailure, 0)] .recordFailure 3 (by decide)).1,
    (breaker_core ⟨2, 10, 1⟩ (by decide) [(.recordFailure, 0), (.recordFailure, 3)] .canExecute 13
      (by decide)).2 (by decide) (by decide)⟩

end WatchedBreaker

/-! ## Half-open episodes -/

/-- A half-open episode: the requests admitted in it, the calls of `CanExecute` after the one
that began it, the successes recorded in it, of its own and of earlier requests, and whether
it ended with the breaker closed. -/
structure Episode where
  admitted : Nat
  arrivals : Nat
  own : Nat
  late : Nat
  closed : Bool
deriving DecidableEq, Repr

/-- A success is recorded in the episode. -/
def Episode.succeed (ours closed : Bool) (ep : Episode) : Episode :=
  { ep with own := ep.own + ours.toNat, late := ep.late + (!ours).toNat, closed := closed }

/-- A request that was admitted, in which episode if in any, and whether its result is
recorded. -/
structure ProbeRequest where
  episode : Option Nat
  recorded : Bool

/-- A breaker, the requests it admitted, and its half-open episodes, the latest first. -/
structure ProbedBreaker where
  breaker : CircuitBreaker
  requests : List ProbeRequest
  episodes : List Episode

/-- A request arrives, or one that was admitted has its result recorded. -/
inductive ProbeEvent where
  | arrive (now : Int)
  | success (request : Nat)
  | failure (request : Nat) (now : Int)

namespace ProbedBreaker

variable (s : ProbedBreaker)

/-- The number of the latest episode. -/
def latest : Nat := s.episodes.length - 1

def arrive (now : Int) : ProbedBreaker :=
  let (cb, admitted) := s.breaker.canExecute now
  match s.breaker.state, admitted with
  | .closed, _ => { s with breaker := cb, requests := s.requests ++ [⟨none, false⟩] }
  | .opened, true =>
    { breaker := cb
      requests := s.requests ++ [⟨some s.episodes.length, false⟩]
      episodes := ⟨1, 0, 0, 0, false⟩ :: s.episodes }
  | .opened, false => { s with breaker := cb }
  | .halfOpen, true =>
    { breaker := cb
      requests := s.requests ++ [⟨some s.latest, false⟩]
      episodes := s.episodes.modifyHead fun ep =>
        { ep with admitted := ep.admitted + 1, arrivals := ep.arrivals + 1 } }
  | .halfOpen, false =>
    { s with
      breaker := cb
      episodes := s.episodes.modifyHead fun ep => { ep with arrivals := ep.arrivals + 1 } }

def succeed (request : Nat) (episode : Option Nat) : ProbedBreaker :=
  let cb := s.breaker.recordSuccess
  { breaker := cb
    requests := s.requests.set request ⟨episode, true⟩
    episodes :=
      if s.breaker.state = .halfOpen then
        s.episodes.modifyHead
          (.succeed (decide (episode = some s.latest)) (decide (cb.state = .closed)))
      else s.episodes }

/-- One event. A result is recorded once, and only for a request that was admitted. -/
def step : ProbeEvent → ProbedBreaker
  | .arrive now => s.arrive now
  | .success request =>
    match s.requests[request]? with
    | some ⟨episode, false⟩ => s.succeed request episode
    | _ => s
  | .failure request now =>
    match s.requests[request]? with
    | some ⟨episode, false⟩ =>
      { s with
        breaker := s.breaker.recordFailure now
        requests := s.requests.set request ⟨episode, true⟩ }
    | _ => s

def after (config : BreakerConfig) (events : List ProbeEvent) : ProbedBreaker :=
  events.foldl step ⟨newCircuitBreaker config, [], []⟩

end ProbedBreaker

/-- At most `max` requests are admitted in the episode, and it closes the breaker only after
`max` successes of its own. -/
def Episode.Bounded (max : Int) (ep : Episode) : Prop :=
  ep.admitted ≤ max ∧ (ep.closed = true → max ≤ ep.own)

/-- Fewer than `max` requests arrive after the one that began the episode, and if it closes
the breaker no success of an earlier request was recorded in it. -/
def Episode.Undisturbed (max : Int) (ep : Episode) : Prop :=
  ep.arrivals < max ∧ (ep.closed = true → ep.late = 0)

/-- What the breaker counts in an episode. -/
def Episode.Tallied (max : Int) (ep : Episode) : Prop :=
  (ep.admitted : Int) = min (ep.arrivals : Int) max + 1 ∧
    (ep.closed = true → (ep.own : Int) + ep.late = max)

theorem Episode.sum_succeed (ep : Episode) (ours closed : Bool) :
    ((ep.succeed ours closed).own : Int) + (ep.succeed ours closed).late =
      ep.own + ep.late + 1 := by
  cases ours <;> simp [succeed] <;> omega

namespace ProbedBreaker

/-- **The counters of a half-open breaker are those of the latest episode.** -/
structure Tracks (max : Int) (s : ProbedBreaker) : Prop where
  limit : s.breaker.halfOpenMaxRequests = max
  tallied : ∀ ep ∈ s.episodes, ep.Tallied max
  current : s.breaker.state = .halfOpen → ∃ ep rest, s.episodes = ep :: rest ∧
    ep.closed = false ∧ s.breaker.halfOpenRequests = min (ep.arrivals : Int) max ∧
    s.breaker.successCount = ep.own + ep.late ∧ s.breaker.successCount < max

variable {max : Int} {s : ProbedBreaker}

theorem tallied_cons {ep ep' : Episode} {rest : List Episode} (h : ep'.Tallied max)
    (hs : ∀ e ∈ ep :: rest, e.Tallied max) : ∀ e ∈ ep' :: rest, e.Tallied max := by
  rw [forall_mem_cons] at hs ⊢
  exact ⟨h, hs.2⟩

theorem tracks_arrive (hmax : 1 ≤ max) (hs : s.Tracks max) (now : Int) :
    (s.arrive now).Tracks max := by
  obtain ⟨hlimit, htallied, hcurrent⟩ := hs
  unfold arrive CircuitBreaker.canExecute
  cases hstate : s.breaker.state with
  | closed => exact ⟨hlimit, htallied, by simp [hstate]⟩
  | opened =>
    by_cases htimeout : Time.sub now s.breaker.lastFailureTime ≥ s.breaker.recoveryTimeout
    · rw [if_pos htimeout]
      refine ⟨hlimit, ?_, fun _ => ⟨_, _, rfl, rfl, ?_, rfl, ?_⟩⟩
      · refine forall_mem_cons.mpr ⟨⟨?_, nofun⟩, htallied⟩
        simp
        omega
      · show (0 : Int) = _
        simp
        omega
      · show (0 : Int) < _
        omega
    · rw [if_neg htimeout]
      exact ⟨hlimit, htallied, by simp [hstate]⟩
  | halfOpen =>
    obtain ⟨ep, rest, heq, hopen, hrequests, hsuccesses, hfew⟩ := hcurrent hstate
    rw [heq] at htallied
    obtain ⟨hadmitted, -⟩ := htallied ep mem_cons_self
    by_cases hroom : s.breaker.halfOpenRequests < s.breaker.halfOpenMaxRequests
    · rw [if_pos hroom, heq]
      refine ⟨hlimit, tallied_cons ⟨?_, by simp [hopen]⟩ htallied,
        fun _ => ⟨_, rest, rfl, hopen, ?_, hsuccesses, hfew⟩⟩
      · simp
        omega
      · simp
        omega
    rw [if_neg hroom, heq]
    refine ⟨hlimit, tallied_cons ⟨?_, by simp [hopen]⟩ htallied,
      fun _ => ⟨_, rest, rfl, hopen, ?_, hsuccesses, hfew⟩⟩
    · simp
      omega
    · simp
      omega

theorem tracks_succeed (hs : s.Tracks max) (request : Nat) (episode : Option Nat) :
    (s.succeed request episode).Tracks max := by
  obtain ⟨hlimit, htallied, hcurrent⟩ := hs
  unfold succeed CircuitBreaker.recordSuccess
  cases hstate : s.breaker.state with
  | closed =>
    dsimp only
    split <;> exact ⟨hlimit, htallied, by simp⟩
  | opened => exact ⟨hlimit, htallied, by simp⟩
  | halfOpen =>
    obtain ⟨ep, rest, heq, hopen, hrequests, hsuccesses, hfew⟩ := hcurrent hstate
    rw [heq] at htallied
    obtain ⟨hadmitted, -⟩ := htallied ep mem_cons_self
    dsimp only
    rw [if_pos rfl, heq]
    split
    · refine ⟨hlimit, tallied_cons ⟨hadmitted, fun _ => ?_⟩ htallied, nofun⟩
      exact (ep.sum_succeed _ _).trans (by omega)
    next hopen' =>
      refine ⟨hlimit, tallied_cons ⟨hadmitted, nofun⟩ htallied,
        fun _ => ⟨_, rest, rfl, rfl, hrequests, ?_, by simpa [hlimit] using hopen'⟩⟩
      exact (congrArg (· + 1) hsuccesses).trans (ep.sum_succeed _ _).symm

theorem tracks_step (hmax : 1 ≤ max) (hs : s.Tracks max) (event : ProbeEvent) :
    (s.step event).Tracks max := by
  cases event with
  | arrive now => exact tracks_arrive hmax hs now
  | success request =>
    rw [step]
    split
    · exact tracks_succeed hs request _
    · exact hs
  | failure request now =>
    rw [step]
    split
    · refine ⟨?_, hs.tallied, fun hstate => absurd hstate ?_⟩
      · rw [← hs.limit]
        unfold CircuitBreaker.recordFailure
        dsimp only
        split
        · split <;> rfl
        · rfl
        · rfl
      · exact (BreakerSystem.recordFailure_spec _ _).1
    · exact hs

theorem tracks_after (config : BreakerConfig) (hmax : 1 ≤ config.halfOpenMaxRequests)
    (events : List ProbeEvent) : (after config events).Tracks config.halfOpenMaxRequests := by
  induction events using List.reverseRecOn with
  | nil => exact ⟨rfl, nofun, nofun⟩
  | append_singleton events event ih =>
    rw [after, foldl_append]
    exact tracks_step hmax ih event

/-- **Half-open probing**, over every interleaving of arrivals and results. -/
theorem probing_iff (config : BreakerConfig) (hmax : 1 ≤ config.halfOpenMaxRequests)
    (events : List ProbeEvent) :
    (∀ ep ∈ (after config events).episodes, ep.Bounded config.halfOpenMaxRequests) ↔
      ∀ ep ∈ (after config events).episodes, ep.Undisturbed config.halfOpenMaxRequests := by
  refine forall₂_congr fun ep hep => ?_
  obtain ⟨hadmitted, hclosed⟩ := (tracks_after config hmax events).tallied ep hep
  refine and_congr ?_ (imp_congr_right fun hc => ?_)
  · omega
  · have := hclosed hc
    omega

/-- One success of the one request of the episode closes the breaker. -/
theorem probing_one : (after ⟨1, 1, 1⟩ [.arrive 0, .failure 0 0, .arrive 1, .success 1]).episodes =
        [⟨1, 0, 1, 0, true⟩] ∧
      ∀ ep ∈ (after ⟨1, 1, 1⟩ [.arrive 0, .failure 0 0, .arrive 1, .success 1]).episodes,
        ep.Bounded 1 :=
  ⟨by decide, (probing_iff ⟨1, 1, 1⟩ (by decide) _).mpr (by unfold Episode.Undisturbed; decide)⟩

/-- An episode with room for one request admits two, and closes on the success of a
request that was admitted before the breaker opened. -/
theorem not_probing_two : (after ⟨1, 1, 1⟩
      [.arrive 0, .arrive 0, .failure 0 0, .arrive 1, .arrive 1, .success 1]).episodes =
        [⟨2, 1, 0, 1, true⟩] ∧ ¬Episode.Bounded 1 ⟨2, 1, 0, 1, true⟩ :=
  ⟨by decide, fun h => absurd h.1 (by decide)⟩

end ProbedBreaker

end DistributedKV.Client
