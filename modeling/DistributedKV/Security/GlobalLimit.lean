import DistributedKV.Security.RateBounds

/-!
# The global limit

`checkGlobalRateLimit` divides the number of requests by the time since the window was last reset.
The reset sets the time but not the number, so from the first reset on it counts requests of
windows that are over.
-/

namespace DistributedKV.Security

open Lts RateLimiter

/-- A limiter, and the requests since its window was last reset. -/
structure WindowedLimiter where
  rl : RateLimiter
  sinceReset : Nat

namespace WindowedLimiter

def start (config : RateLimitConfig) (clock : Int) : WindowedLimiter :=
  ⟨newRateLimiter config clock, 0⟩

/-- One event. A request counts for the window unless it has reset it. -/
def step (conv : Conversion) (s : WindowedLimiter) (event : Event) : Option WindowedLimiter :=
  (s.rl.step conv event).map fun rl =>
    ⟨rl, if rl.lastResetTime ≠ s.rl.lastResetTime then 0
      else s.sinceReset + match event with | .request .. => 1 | _ => 0⟩

/-- What `checkGlobalRateLimit` answers the next request, which has been counted before. -/
def answer (s : WindowedLimiter) (clock : Int) : Bool :=
  (checkGlobalRateLimit clock { s.rl with totalRequests := s.rl.totalRequests + 1 }).2

/-- The requests of the window, with the next one, are over the global rate. -/
def Exceeds (s : WindowedLimiter) (clock : Int) : Prop :=
  s.rl.config.globalRateLimit.toInt * (Time.sub clock s.rl.lastResetTime).toInt <
    (s.sinceReset + 1) * 1000000000

instance decidableExceeds (s : WindowedLimiter) (clock : Int) : Decidable (s.Exceeds clock) :=
  inferInstanceAs (Decidable (_ < _))

/-- A request comes before the end of the window. -/
def InWindow (s : WindowedLimiter) : Event → Prop
  | .request clock _ _ => Time.sub clock.global s.rl.lastResetTime < s.rl.config.windowSize
  | _ => True

instance decidableInWindow (s : WindowedLimiter) : ∀ event, Decidable (s.InWindow event) := by
  rintro ⟨⟩ <;> dsimp only [InWindow] <;> infer_instance

/-- The total is that of the window. -/
structure FirstWindow (config : RateLimitConfig) (s : WindowedLimiter) : Prop where
  config_eq : s.rl.config = config
  total : s.rl.totalRequests = Int64.ofNat s.sinceReset

section FirstWindow

variable {conv : Conversion} {config : RateLimitConfig} {s t : WindowedLimiter} {event : Event}

theorem preCheck_counts (clock : Readings) (rl : RateLimiter) (clientID : String)
    (timestamp : Int) (hwindow : Time.sub clock.global rl.lastResetTime < rl.config.windowSize) :
    (rl.preCheck clock clientID timestamp).1.totalRequests = rl.totalRequests + 1 ∧
      (rl.preCheck clock clientID timestamp).1.lastResetTime = rl.lastResetTime := by
  simp only [preCheck, isWhitelisted, isBlacklisted, checkGlobalRateLimit]
  grind

theorem FirstWindow.next (hs : s.FirstWindow config) :
    s.rl.totalRequests + 1 = Int64.ofNat (s.sinceReset + 1) := by
  rw [Int64.ofNat_add, ← hs.total]
  rfl

theorem FirstWindow.step (hs : s.FirstWindow config) (hin : s.InWindow event)
    (h : s.step conv event = some t) : t.FirstWindow config := by
  obtain ⟨rl, hrl, rfl⟩ := Option.map_eq_some_iff.mp h
  cases event with
  | request clock order req =>
    cases hrl
    have hcounts := preCheck_counts clock s.rl (s.rl.config.extractClientID (stamped clock req))
      (stamped clock req).timestamp hin
    have hsame := (preCheck_spec clock s.rl (s.rl.config.extractClientID (stamped clock req))
      (stamped clock req).timestamp).1.config_eq
    rcases checkRateLimit_cases conv clock order s.rl req with ⟨_, -, heq⟩ | ⟨_, -, heq⟩ <;>
    · rw [heq, if_neg (not_not.mpr hcounts.2)]
      exact ⟨hsame.trans hs.config_eq, hcounts.1.trans hs.next⟩
  | addToBlacklist | addToWhitelist | cleanup =>
    cases hrl
    exact ⟨hs.config_eq, hs.total.trans (by simp [addToBlacklist, addToWhitelist, cleanup])⟩

theorem FirstWindow.exceeds (hs : s.FirstWindow config) (hlimit : 0 < config.globalRateLimit)
    {clock : Int} (hrefused : s.answer clock = false) : s.Exceeds clock := by
  have hpos := Int64.lt_iff_toInt_lt.mp hlimit
  have htotal : (s.rl.totalRequests + 1).toInt ≤ s.sinceReset + 1 := by
    have hsize : Int64.size = 18446744073709551616 := rfl
    rw [hs.next, Int64.toInt_ofNat', hsize]
    simp only [Int.bmod]
    omega
  rw [answer, checkGlobalRateLimit] at hrefused
  rw [Exceeds, hs.config_eq]
  rw [hs.config_eq] at hrefused
  dsimp only at hrefused
  generalize Time.sub clock s.rl.lastResetTime = elapsed at hrefused ⊢
  have hneg : elapsed.toInt ≤ 0 → config.globalRateLimit.toInt * elapsed.toInt ≤ 0 :=
    mul_nonpos_of_nonneg_of_nonpos hpos.le
  split at hrefused
  · cases hrefused
  rw [withinRate] at hrefused
  split at hrefused
  · next hzero =>
    have := hneg (by simp [hzero])
    omega
  split at hrefused
  · have := of_decide_eq_false hrefused
    omega
  next hback =>
    have := hneg (by simpa [Int64.lt_iff_toInt_lt] using hback)
    omega

end FirstWindow

/-- **The global limit looks only at the current window** as long as that is the first one: it
refuses a request only if the window is over the rate, and histories with the same window get the
same answers. -/
theorem global_window (conv : Conversion) (config : RateLimitConfig) (clock clock' : Int)
    (events events' : List Event) (hlimit : 0 < config.globalRateLimit)
    (hin : Along (step conv) InWindow (start config clock) events)
    (hin' : Along (step conv) InWindow (start config clock') events') :
    ∀ t ∈ trace (step conv) (start config clock) events,
      (∀ now, t.answer now = false → t.Exceeds now) ∧
      ∀ t' ∈ trace (step conv) (start config clock') events', t'.sinceReset = t.sinceReset →
        t'.rl.lastResetTime = t.rl.lastResetTime → t'.answer = t.answer := by
  have hfirst : ∀ clock events, Along (step conv) InWindow (start config clock) events →
      ∀ t ∈ trace (step conv) (start config clock) events,
        t.FirstWindow (newRateLimiter config 0).config :=
    fun clock events hin => hin.forall_trace ⟨rfl, rfl⟩ fun _ _ _ hs hin => hs.step hin
  intro t ht
  have hs := hfirst clock events hin t ht
  refine ⟨fun now => hs.exceeds hlimit, fun t' ht' hcount htime => funext fun now => ?_⟩
  have hs' := hfirst clock' events' hin' t' ht'
  simp only [answer, checkGlobalRateLimit, hs.config_eq, hs'.config_eq, hs.total, hs'.total, hcount,
    htime]
  split <;> rfl

/-- Two requests a second, over all clients. -/
def twoPerSecond : RateLimitConfig := ⟨2, 0, 0, 0, [], "", false, false, 0⟩

theorem global_window_two : 0 < twoPerSecond.globalRateLimit ∧
    ∀ t ∈ trace (step wrapConversion) (start twoPerSecond 0)
      [requestAt 1 "GET" "/", requestAt 2 "GET" "/"],
      (∀ now, t.answer now = false → t.Exceeds now) ∧
      ∀ t' ∈ trace (step wrapConversion) (start twoPerSecond 0)
        [requestAt 5 "PUT" "/a", requestAt 900000000 "GET" "/b"], t'.sinceReset = t.sinceReset →
        t'.rl.lastResetTime = t.rl.lastResetTime → t'.answer = t.answer :=
  ⟨by decide +kernel, global_window wrapConversion twoPerSecond 0 0 _ _
    (by decide +kernel) (by decide +kernel) (by decide +kernel)⟩

/-- Four requests, and one that resets the window. -/
def burst : List Event :=
  List.replicate 4 (requestAt 1 "GET" "/") ++ [requestAt 1000000000 "GET" "/"]

/-- The first request of the second window is refused for those of the first. -/
theorem not_global_window :
    (exec (step wrapConversion) (start twoPerSecond 0) burst).map (fun s => (s.sinceReset,
        s.rl.lastResetTime, s.answer 1900000000, decide (s.Exceeds 1900000000))) =
      some (0, 1000000001, false, false) ∧ (start twoPerSecond 1000000001).sinceReset = 0 ∧
    (start twoPerSecond 1000000001).answer 1900000000 = true := by
  decide +kernel

end WindowedLimiter

end DistributedKV.Security
