import DistributedKV.Lib.TokenBucket
import DistributedKV.Security.RateLimit
import Mathlib.Tactic.FieldSimp

/-!
# What the rate limiter lets through

A run is a list of requests of any clients, entries into the black- and the whitelist, and cleanup
passes. For one client the limiter is a `TokenBucket`, counted in billionths of a token so that
the rate is one per nanosecond.

A client has one limiter for all rules, every rule overwrites its limits, no rule restores the
default ones, and the cap is applied only when time has passed. So the limits of a rule bound the
rate only if the client's requests do not change them in between.
-/

namespace DistributedKV.Security

open Lts TokenBucket List Option

/-! ## Arithmetic -/

/-- Adding a converted number never gives more than the number, overflow or not. -/
theorem Conversion.toInt_add_le (conv : Conversion) (tokens : Int64) {n : Int} (hn : 0 ≤ n) :
    (tokens + conv.toInt64 n).toInt ≤ max tokens.toInt 0 + n := by
  by_cases hfits : n ≤ 9223372036854775807
  · rw [Int64.toInt_add, conv.exact n (by omega) hfits]
    have hle := tokens.le_toInt
    simp only [Int.bmod]
    omega
  · have hlt := (tokens + conv.toInt64 n).toInt_lt
    omega

namespace Conversion

/-- The product is the rational one. -/
def Exact (conv : Conversion) : Prop :=
  ∀ elapsed rate, conv.product elapsed rate = Int.tdiv (elapsed.toInt * rate.toInt) 1000000000

/-- The product of this time and rate is not rounded up to a whole number of tokens. -/
def RoundsDown (conv : Conversion) (elapsed rate : Int64) : Prop :=
  0 < elapsed.toInt → 0 ≤ conv.product elapsed rate ∧
    1000000000 * conv.product elapsed rate ≤ elapsed.toInt * rate.toInt

instance (conv : Conversion) (elapsed rate : Int64) : Decidable (conv.RoundsDown elapsed rate) :=
  inferInstanceAs (Decidable (_ → _))

theorem Exact.roundsDown {conv : Conversion} (h : conv.Exact) (elapsed : Int64) {rate : Int64}
    (hrate : 0 ≤ rate.toInt) : conv.RoundsDown elapsed rate := by
  intro helapsed
  have hprod : 0 ≤ elapsed.toInt * rate.toInt := mul_nonneg helapsed.le hrate
  rw [h, Int.tdiv_eq_ediv_of_nonneg hprod]
  omega

end Conversion

/-! ## One limiter -/

namespace ClientLimiter

variable {conv : Conversion} {limiter : ClientLimiter} {now : Int} {clock : Readings}
  {req : RateLimitRequest} {rule : Option RateLimitRule}

/-- The bucket of a limiter, in billionths of a token. -/
def bucket (limiter : ClientLimiter) : Bucket Int :=
  ⟨1000000000 * limiter.tokens.toInt, limiter.lastRefill⟩

/-- The limiter with the limits of the rule, if there is one. -/
def withLimits (limiter : ClientLimiter) : Option RateLimitRule → ClientLimiter
  | some rule =>
    { limiter with
      rateLimit := rule.rateLimit, burstLimit := rule.burstLimit, windowSize := rule.windowSize }
  | none => limiter

@[simp] theorem withLimits_bucket : (limiter.withLimits rule).bucket = limiter.bucket := by
  cases rule <;> rfl

/-- A refill adds at most the rate times the time that has passed. -/
theorem refillTokens_draw (conv : Conversion) (now : Int) (hrate : 0 ≤ limiter.rateLimit.toInt)
    (hround : conv.RoundsDown (Time.sub now limiter.lastRefill) limiter.rateLimit) :
    Draw limiter.rateLimit.toInt limiter.bucket now 0 (limiter.refillTokens conv now).bucket := by
  rw [refillTokens]
  by_cases helapsed : Time.sub now limiter.lastRefill ≤ 0
  · have hnow : now ≤ limiter.lastRefill := by
      rw [← not_lt, ← Time.sub_pos]
      exact Int64.not_lt.mpr helapsed
    rw [if_pos helapsed]
    constructor
    · exact (max_eq_left hnow).symm
    · simp
  have hnow : limiter.lastRefill < now := Time.sub_pos.mp (Int64.not_le.mp helapsed)
  rw [if_neg helapsed]
  constructor
  · exact (max_eq_right hnow.le).symm
  have hle := Time.sub_le hnow.le
  have hpos : 0 < (Time.sub now limiter.lastRefill).toInt :=
    Int64.lt_iff_toInt_lt.mp (Time.sub_pos.mpr hnow)
  obtain ⟨hnonneg, hproduct⟩ := hround hpos
  generalize conv.product (Time.sub now limiter.lastRefill) limiter.rateLimit = product
    at hnonneg hproduct ⊢
  generalize (Time.sub now limiter.lastRefill).toInt = elapsed at hle hpos hproduct
  have hspan : elapsed * limiter.rateLimit.toInt ≤
      limiter.rateLimit.toInt * (now - limiter.lastRefill) := by
    rw [mul_comm]
    exact mul_le_mul_of_nonneg_left hle hrate
  have hadd := conv.toInt_add_le limiter.tokens hnonneg
  have hcap (n burst : Int64) : (if n > burst then burst else n).toInt ≤ n.toInt := by
    split
    · next hover => exact (Int64.lt_iff_toInt_lt.mp hover).le
    · exact le_rfl
  specialize hcap (limiter.tokens + conv.toInt64 product) limiter.burstLimit
  dsimp only [bucket]
  omega

/-- A refill caps the tokens, unless no time has passed. -/
theorem refillTokens_le (h : limiter.tokens ≤ limiter.burstLimit ∨ limiter.lastRefill < now) :
    (limiter.refillTokens conv now).tokens ≤ limiter.burstLimit := by
  rw [refillTokens]
  dsimp only
  split
  · next helapsed =>
    refine h.resolve_right fun hnow => ?_
    exact Int64.not_le.mpr (Time.sub_pos.mpr hnow) helapsed
  split
  · exact Int64.le_refl _
  · next hover => exact Int64.not_lt.mp hover

@[simp] theorem refillTokens_rateLimit :
    (limiter.refillTokens conv now).rateLimit = limiter.rateLimit := by
  rw [refillTokens]
  split <;> rfl

@[simp] theorem refillTokens_burstLimit :
    (limiter.refillTokens conv now).burstLimit = limiter.burstLimit := by
  rw [refillTokens]
  split <;> rfl

theorem refillTokens_withLimits_le (conv : Conversion) (now : Int)
    (h : limiter.tokens ≤ (limiter.withLimits rule).burstLimit ∨ limiter.lastRefill < now) :
    ((limiter.withLimits rule).refillTokens conv now).tokens ≤
      (limiter.withLimits rule).burstLimit :=
  refillTokens_le (by cases rule <;> exact h)

/-- Rule actions leave the bucket and the burst alone, and the rate unless one throttles. -/
theorem applyRuleActions_same (limiter : ClientLimiter) (clock : Int) (actions : List RuleAction)
    (violation : ViolationRecord) :
    let after := (limiter.applyRuleActions clock actions violation).1
    after.tokens = limiter.tokens ∧ after.lastRefill = limiter.lastRefill ∧
      after.burstLimit = limiter.burstLimit ∧
      ((∀ action ∈ actions, action.type ≠ .throttle) → after.rateLimit = limiter.rateLimit) := by
  rw [applyRuleActions]
  induction actions generalizing limiter violation with
  | nil => simp
  | cons action actions ih =>
    rw [foldl_cons, applyRuleAction]
    cases htype : action.type with
    | block =>
      obtain ⟨htokens, hrefill, hburst, hrate⟩ := ih
        { limiter with blocked := true, blockedUntil := Time.add clock action.duration }
        { violation with action := "blocked_by_rule", severity := action.severity }
      exact ⟨htokens, hrefill, hburst, fun h => hrate (forall_mem_cons.mp h).2⟩
    | alert | other =>
      obtain ⟨htokens, hrefill, hburst, hrate⟩ := ih limiter violation
      exact ⟨htokens, hrefill, hburst, fun h => hrate (forall_mem_cons.mp h).2⟩
    | throttle =>
      obtain ⟨htokens, hrefill, hburst, -⟩ := ih
        { limiter with rateLimit := limiter.rateLimit / 2 } { violation with action := "throttled" }
      exact ⟨htokens, hrefill, hburst, fun h => absurd htype (h action mem_cons_self)⟩

theorem takeToken_spec (conv : Conversion) (clock : Readings) (limiter : ClientLimiter) (now : Int)
    (actions : List RuleAction) :
    let out := limiter.takeToken conv clock now actions
    out.1.lastRefill = (limiter.refillTokens conv now).lastRefill ∧ (if out.2.allowed then
        0 < (limiter.refillTokens conv now).tokens ∧
          out.1.tokens = (limiter.refillTokens conv now).tokens - 1
      else out.1.tokens = (limiter.refillTokens conv now).tokens) ∧
      out.1.burstLimit = limiter.burstLimit ∧
      ((∀ action ∈ actions, action.type ≠ .throttle) → out.1.rateLimit = limiter.rateLimit) := by
  rw [takeToken]
  split
  · next htokens =>
    exact ⟨rfl, ⟨htokens, rfl⟩, refillTokens_burstLimit, fun _ => refillTokens_rateLimit⟩
  obtain ⟨htokens, hrefill, hburst, hrate⟩ := applyRuleActions_same
    { limiter.refillTokens conv now with lastSeen := now } clock.action actions
    ⟨now, (limiter.refillTokens conv now).rateLimit, "medium", "rate_limited"⟩
  refine ⟨hrefill, htokens, hburst.trans refillTokens_burstLimit, fun h => ?_⟩
  exact (hrate h).trans refillTokens_rateLimit

/-- The limiter as it is checked once a block has run out. -/
def unblocked (limiter : ClientLimiter) (now : Int) : ClientLimiter :=
  if limiter.blocked && decide (limiter.blockedUntil < now) then
    { limiter with blocked := false, blockedUntil := 0 }
  else limiter

theorem unblocked_same (conv : Conversion) (limiter : ClientLimiter) (now : Int) :
    (limiter.unblocked now).rateLimit = limiter.rateLimit ∧
      (limiter.unblocked now).burstLimit = limiter.burstLimit ∧
      ((limiter.unblocked now).refillTokens conv now).tokens =
        (limiter.refillTokens conv now).tokens ∧
      ((limiter.unblocked now).refillTokens conv now).lastRefill =
        (limiter.refillTokens conv now).lastRefill := by
  rw [unblocked]
  split
  · refine ⟨rfl, rfl, ?_, ?_⟩ <;> simp only [refillTokens] <;> split <;> rfl
  · exact ⟨rfl, rfl, rfl, rfl⟩

/-- **What a request does to the limiter**: nothing is drawn while the client is blocked;
otherwise it is refilled under the limits in force, and an allowed request takes one token. -/
structure Checked (conv : Conversion) (limiter : ClientLimiter) (rule : Option RateLimitRule)
    (now : Int) (after : ClientLimiter) (allowed : Bool) : Prop where
  drawn : (limiter.blocked = true ∧ allowed = false ∧ after.bucket = limiter.bucket) ∨
    (after.lastRefill = ((limiter.withLimits rule).refillTokens conv now).lastRefill ∧
      if allowed then
        0 < ((limiter.withLimits rule).refillTokens conv now).tokens ∧
          after.tokens = ((limiter.withLimits rule).refillTokens conv now).tokens - 1
      else after.tokens = ((limiter.withLimits rule).refillTokens conv now).tokens)
  burstLimit_eq : after.burstLimit = (limiter.withLimits rule).burstLimit
  rateLimit_eq : (∀ r ∈ rule, ∀ action ∈ r.actions, action.type ≠ .throttle) →
    after.rateLimit = (limiter.withLimits rule).rateLimit

theorem toInt_sub_one {tokens : Int64} (h : 0 < tokens) :
    (tokens - 1).toInt = tokens.toInt - 1 := by
  have hpos : (0 : Int) < _ := Int64.lt_iff_toInt_lt.mp h
  have hlt := tokens.toInt_lt
  rw [Int64.toInt_sub, Int64.toInt_one]
  simp only [Int.bmod]
  omega

section Checked

variable {after : ClientLimiter} {allowed : Bool}

/-- What a request takes, in billionths of a token. -/
def price (allowed : Bool) : Int := if allowed then 1000000000 else 0

/-- Unless the client is blocked, a request is a draw under any rate not below the one in force.
-/
theorem Checked.draw (h : limiter.Checked conv rule now after allowed)
    (hfree : ¬(limiter.blocked = true ∧ allowed = false ∧ after.bucket = limiter.bucket))
    {rate taken : Int} (hnonneg : 0 ≤ (limiter.withLimits rule).rateLimit.toInt)
    (hround : conv.RoundsDown (Time.sub now limiter.lastRefill)
      (limiter.withLimits rule).rateLimit)
    (hrate : (limiter.withLimits rule).rateLimit.toInt ≤ rate) (htaken : taken ≤ price allowed) :
    Draw rate limiter.bucket now taken after.bucket := by
  obtain ⟨hlast, htoken⟩ := h.drawn.resolve_left hfree
  have hdraw := refillTokens_draw conv now hnonneg (by cases rule <;> exact hround)
  rw [withLimits_bucket] at hdraw
  have hstamp : after.bucket.stamp = max limiter.bucket.stamp now := hlast.trans hdraw.stamp_eq
  refine ⟨hstamp, ?_⟩
  have hspan : (limiter.withLimits rule).rateLimit.toInt *
      (after.bucket.stamp - limiter.bucket.stamp) ≤
        rate * (after.bucket.stamp - limiter.bucket.stamp) := by
    refine mul_le_mul_of_nonneg_right hrate ?_
    rw [hstamp]
    exact sub_nonneg.mpr (le_max_left _ _)
  have hlevel := hdraw.level_le
  rw [show ((limiter.withLimits rule).refillTokens conv now).bucket.stamp = after.bucket.stamp from
    hlast.symm] at hlevel
  have hleft : max after.bucket.level 0 + price allowed ≤
      max ((limiter.withLimits rule).refillTokens conv now).bucket.level 0 := by
    cases allowed with
    | false =>
      have htokens : after.tokens = _ := htoken
      simp only [price, bucket, htokens, Bool.false_eq_true, if_false, add_zero, le_refl]
    | true =>
      obtain ⟨hpos, htokens⟩ := htoken
      have hone : (0 : Int) < _ := Int64.lt_iff_toInt_lt.mp hpos
      simp only [price, bucket, htokens, toInt_sub_one hpos, if_true]
      omega
  linarith

/-- After an allowed request there is a token less than the burst, if the bucket was not above
it or has been capped. -/
theorem Checked.capped (h : limiter.Checked conv rule now after true)
    (hcap : limiter.tokens ≤ (limiter.withLimits rule).burstLimit ∨ limiter.lastRefill < now) :
    max after.bucket.level 0 + 1000000000 ≤
      1000000000 * (limiter.withLimits rule).burstLimit.toInt := by
  obtain ⟨-, hpos, htokens⟩ := h.drawn.resolve_left fun h => Bool.noConfusion h.2.1
  have hone : (0 : Int) < _ := Int64.lt_iff_toInt_lt.mp hpos
  have := Int64.le_iff_toInt_le.mp (refillTokens_withLimits_le conv now hcap)
  simp only [bucket, htokens, toInt_sub_one hpos]
  omega

theorem Checked.tokens_le (h : limiter.Checked conv rule now after allowed)
    (hcap : limiter.tokens ≤ (limiter.withLimits rule).burstLimit) :
    after.tokens ≤ (limiter.withLimits rule).burstLimit := by
  have hle := refillTokens_withLimits_le conv now (Or.inl hcap)
  rw [Int64.le_iff_toInt_le] at hle hcap ⊢
  rcases h.drawn with ⟨-, -, hbucket⟩ | ⟨-, htoken⟩
  · have hlevel : 1000000000 * after.tokens.toInt = 1000000000 * limiter.tokens.toInt :=
      congrArg Bucket.level hbucket
    omega
  cases allowed with
  | false =>
    have htokens : after.tokens = _ := htoken
    rwa [htokens]
  | true =>
    obtain ⟨hpos, htokens⟩ := htoken
    rw [htokens, toInt_sub_one hpos]
    omega

end Checked

end ClientLimiter

open ClientLimiter

theorem RateLimiter.applyLimit_checked (conv : Conversion) (clock : Readings)
    (rule : Option RateLimitRule) (limiter : ClientLimiter) (req : RateLimitRequest) :
    limiter.Checked conv rule req.timestamp (applyLimit conv clock rule limiter req).1
      (applyLimit conv clock rule limiter req).2.allowed := by
  have heq : applyLimit conv clock rule limiter req =
      (limiter.withLimits rule).processRateLimit conv clock req rule := by
    cases rule <;> rfl
  rw [heq, processRateLimit]
  split
  · next h =>
    have hblocked : limiter.blocked = true := by
      rw [Bool.and_eq_true] at h
      cases rule <;> exact h.1
    exact ⟨Or.inl ⟨hblocked, rfl, withLimits_bucket⟩, rfl, fun _ => rfl⟩
  obtain ⟨hrate, hburst, htokens, hrefill⟩ :=
    unblocked_same conv (limiter.withLimits rule) req.timestamp
  obtain ⟨hlast, htoken, hburst', hrate'⟩ := takeToken_spec conv clock
    ((limiter.withLimits rule).unblocked req.timestamp) req.timestamp
    ((rule.map RateLimitRule.actions).getD [])
  rw [hrefill] at hlast
  rw [htokens] at htoken
  refine ⟨Or.inr ⟨hlast, htoken⟩, hburst'.trans hburst, fun h => (hrate' ?_).trans hrate⟩
  cases rule with
  | none => simp
  | some r => exact h r rfl

/-! ## Runs -/

/-- What may happen to a rate limiter. -/
inductive Event where
  | request (clock : Readings) (order : IterationOrder ((_ : String) × RateLimitRule))
      (req : RateLimitRequest)
  | addToBlacklist (clock : Int) (clientID : String) (duration : Int64) (permanent : Bool)
  | addToWhitelist (clock : Int) (clientID : String) (duration : Option Int64) (permanent : Bool)
  | cleanup (clock : Int)

namespace Event

/-- A request of the client. -/
def OfClient (config : RateLimitConfig) (clientID : String) : Event → Prop
  | .request clock _ req => config.extractClientID (RateLimiter.stamped clock req) = clientID
  | _ => False

instance (config : RateLimitConfig) (clientID : String) (event : Event) :
    Decidable (event.OfClient config clientID) := by
  cases event <;> dsimp only [OfClient] <;> infer_instance

/-- The time stamp of a request. -/
def time : Event → Int
  | .request clock _ req => (RateLimiter.stamped clock req).timestamp
  | _ => 0

/-- The rule that a request comes under. -/
def rule (rules : GoMap String RateLimitRule) : Event → Option RateLimitRule
  | .request clock order req => findMatchingRule rules order (RateLimiter.stamped clock req)
  | _ => none

/-- The requests of a client come in the order of their time stamps. -/
def InOrder (config : RateLimitConfig) (clientID : String) (events : List Event) : Prop :=
  events.Pairwise fun e e' =>
    e.OfClient config clientID → e'.OfClient config clientID → e.time ≤ e'.time

instance (config : RateLimitConfig) (clientID : String) (events : List Event) :
    Decidable (InOrder config clientID events) :=
  inferInstanceAs (Decidable (List.Pairwise _ _))

end Event

namespace RateLimiter

variable (conv : Conversion)

/-- One event. -/
def step (rl : RateLimiter) : Event → Option RateLimiter
  | .request clock order req => some (rl.checkRateLimit conv clock order req).1
  | .addToBlacklist clock clientID duration permanent =>
    some (rl.addToBlacklist clock clientID duration permanent)
  | .addToWhitelist clock clientID duration permanent =>
    some (rl.addToWhitelist clock clientID duration permanent)
  | .cleanup clock => some (rl.cleanup clock)

/-- The event is a request and is allowed. -/
def allows (rl : RateLimiter) : Event → Bool
  | .request clock order req => (rl.checkRateLimit conv clock order req).2.allowed
  | _ => false

/-- The number of allowed requests of a run that count and whose time stamp is in the
window. -/
def allowedIn (counts : Event → Bool) (lo hi : Int) (rl : RateLimiter) : List Event → Nat
  | [] => 0
  | event :: events =>
    (if counts event ∧ rl.allows conv event ∧ lo ≤ event.time ∧ event.time ≤ hi then 1 else 0) +
      ((rl.step conv event).map fun rl => allowedIn counts lo hi rl events).getD 0

/-- The client is on the whitelist, and the whitelist is used. -/
def Whitelisted (rl : RateLimiter) (clock : Readings) (clientID : String) : Prop :=
  rl.config.enableWhitelist = true ∧ (rl.isWhitelisted clock.whitelist clientID).2 = true

/-- The event does not answer the client from the whitelist and does not clean up its
limiter. -/
def Serves (clientID : String) (rl : RateLimiter) : Event → Prop
  | .request clock order req =>
    (Event.request clock order req).OfClient rl.config clientID → ¬rl.Whitelisted clock clientID
  | .cleanup clock => ∀ limiter ∈ rl.limiters.lookup clientID,
    Time.sub clock limiter.lastSeen ≤ rl.config.maxIdleTime
  | _ => True

instance (rl : RateLimiter) (clock : Readings) (clientID : String) :
    Decidable (rl.Whitelisted clock clientID) :=
  inferInstanceAs (Decidable (_ ∧ _))

instance (clientID : String) (rl : RateLimiter) (event : Event) :
    Decidable (rl.Serves clientID event) :=
  match event with
  | .request .. => inferInstanceAs (Decidable (_ → _))
  | .cleanup clock =>
    match h : rl.limiters.lookup clientID with
    | none => .isTrue fun limiter hlimiter => by simp [h] at hlimiter
    | some limiter => decidable_of_iff (Time.sub clock limiter.lastSeen ≤ rl.config.maxIdleTime)
        ⟨fun hle l hl => by rw [h] at hl; exact Option.some.inj hl ▸ hle,
          fun hall => hall limiter h⟩
  | .addToBlacklist .. => instDecidableTrue
  | .addToWhitelist .. => instDecidableTrue

/-- The limiter that a request of the client is checked against. -/
def limiterFor (rl : RateLimiter) (clientID : String) : Event → Option ClientLimiter
  | .request clock _ req =>
    some (rl.getOrCreateLimiter clock.created clientID (stamped clock req))
  | _ => none

variable {conv} {rl rl' : RateLimiter} {clock : Readings} {clientID : String} {event : Event}

/-- Configuration, rules and limiters are the same. -/
structure SameLimiters (rl rl' : RateLimiter) : Prop where
  config_eq : rl'.config = rl.config
  rules_eq : rl'.rules = rl.rules
  limiters_eq : rl'.limiters = rl.limiters

theorem SameLimiters.trans {rl'' : RateLimiter} (h : rl.SameLimiters rl')
    (h' : rl'.SameLimiters rl'') : rl.SameLimiters rl'' :=
  ⟨h'.1.trans h.1, h'.2.trans h.2, h'.3.trans h.3⟩

theorem lists_same (clock : Int) (rl : RateLimiter) (clientID : String) :
    rl.SameLimiters (rl.isWhitelisted clock clientID).1 ∧
      rl.SameLimiters (rl.isBlacklisted clock clientID).1 := by
  rw [isWhitelisted, isBlacklisted]
  constructor <;> repeat' split
  all_goals exact ⟨rfl, rfl, rfl⟩

theorem checkGlobalRateLimit_same (clock : Int) (rl : RateLimiter) :
    rl.SameLimiters (rl.checkGlobalRateLimit clock).1 := by
  rw [checkGlobalRateLimit]
  split <;> exact ⟨rfl, rfl, rfl⟩

theorem same_ite {b : Prop} [Decidable b] {out : RateLimiter × Bool} {other : Bool}
    (h : rl.SameLimiters out.1) : rl.SameLimiters (if b then out else (rl, other)).1 := by
  split
  · exact h
  · exact ⟨rfl, rfl, rfl⟩

theorem isWhitelisted_counted (clock : Int) (rl : RateLimiter) (clientID : String) (n : Int64) :
    (isWhitelisted clock { rl with totalRequests := n } clientID).2 =
      (rl.isWhitelisted clock clientID).2 := by
  simp only [isWhitelisted]
  split
  · rfl
  · split <;> rfl

/-- `CheckRateLimit` before the bucket does not touch limiters, rules and configuration, and
allows only clients on the whitelist. -/
theorem preCheck_spec (clock : Readings) (rl : RateLimiter) (clientID : String) (timestamp : Int) :
    rl.SameLimiters (rl.preCheck clock clientID timestamp).1 ∧
      ∀ result ∈ (rl.preCheck clock clientID timestamp).2, result.allowed = true →
        rl.Whitelisted clock clientID := by
  rw [preCheck]
  dsimp only
  have hcounted : rl.SameLimiters { rl with totalRequests := rl.totalRequests + 1 } :=
    ⟨rfl, rfl, rfl⟩
  generalize hw : (if rl.config.enableWhitelist = true then
    isWhitelisted clock.whitelist { rl with totalRequests := rl.totalRequests + 1 } clientID
    else ({ rl with totalRequests := rl.totalRequests + 1 }, false)) = white
  have hwhite : rl.SameLimiters white.1 := hcounted.trans (hw ▸ same_ite (lists_same _ _ _).1)
  generalize hb : (if white.1.config.enableBlacklist = true then
    isBlacklisted clock.blacklist white.1 clientID else (white.1, false)) = black
  have hblack : rl.SameLimiters black.1 := hwhite.trans (hb ▸ same_ite (lists_same _ _ _).2)
  generalize hg : (if black.1.config.globalRateLimit > 0 then
    checkGlobalRateLimit clock.global black.1 else (black.1, true)) = global
  have hglobal : rl.SameLimiters global.1 :=
    hblack.trans (hg ▸ same_ite (checkGlobalRateLimit_same _ _))
  split
  · next hlisted =>
    refine ⟨hwhite, fun _ _ _ => ?_⟩
    split_ifs at hw with henabled
    · refine ⟨henabled, ?_⟩
      rw [← hw, isWhitelisted_counted] at hlisted
      exact hlisted
    · rw [← hw] at hlisted
      exact absurd hlisted Bool.false_ne_true
  · split
    · refine ⟨hblack, ?_⟩
      rintro result ⟨⟩ ⟨⟩
    split <;> refine ⟨hglobal, ?_⟩
    · rintro result ⟨⟩
    · rintro result ⟨⟩ ⟨⟩

/-- A request is answered before the bucket, or by the limiter of its client. -/
theorem checkRateLimit_cases (conv : Conversion) (clock : Readings)
    (order : IterationOrder ((_ : String) × RateLimitRule)) (rl : RateLimiter)
    (req : RateLimitRequest) :
    let clientID := rl.config.extractClientID (stamped clock req)
    let pre := rl.preCheck clock clientID (stamped clock req).timestamp
    (∃ result ∈ pre.2, rl.checkRateLimit conv clock order req = (pre.1, result)) ∨
    ∃ limiter, rl.getOrCreateLimiter clock.created clientID (stamped clock req) = limiter ∧
      rl.checkRateLimit conv clock order req =
        ({ pre.1 with
            limiters := pre.1.limiters.insert clientID
              (applyLimit conv clock (findMatchingRule rl.rules order (stamped clock req)) limiter
                (stamped clock req)).1 },
          (applyLimit conv clock (findMatchingRule rl.rules order (stamped clock req)) limiter
            (stamped clock req)).2) := by
  obtain ⟨hsame, -⟩ := preCheck_spec clock rl (rl.config.extractClientID (stamped clock req))
    (stamped clock req).timestamp
  rw [checkRateLimit]
  dsimp only
  split
  · next rl₁ result heq =>
    rw [heq]
    exact Or.inl ⟨result, rfl, rfl⟩
  next rl₁ heq =>
    rw [heq] at hsame ⊢
    refine Or.inr ⟨_, rfl, ?_⟩
    rw [getOrCreateLimiter, getOrCreateLimiter, hsame.rules_eq, hsame.limiters_eq, hsame.config_eq]

/-- **What an event does to one client's limiter**: nothing, and no request of the client is
allowed; or it is a request that is checked against the limiter. -/
theorem step_cases (hserves : rl.Serves clientID event) (hstep : rl.step conv event = some rl') :
    rl'.config = rl.config ∧ rl'.rules = rl.rules ∧
    ((rl'.limiters.lookup clientID = rl.limiters.lookup clientID ∧
        ¬(event.OfClient rl.config clientID ∧ rl.allows conv event = true)) ∨
      event.OfClient rl.config clientID ∧ ∃ limiter after,
        rl.limiterFor clientID event = some limiter ∧ rl'.limiters.lookup clientID = some after ∧
        limiter.Checked conv (event.rule rl.rules) event.time after (rl.allows conv event)) := by
  cases event with
  | addToBlacklist | addToWhitelist =>
    cases hstep
    exact ⟨rfl, rfl, Or.inl ⟨rfl, fun h => h.1⟩⟩
  | cleanup clock =>
    cases hstep
    refine ⟨rfl, rfl, Or.inl ⟨?_, fun h => h.1⟩⟩
    rw [cleanup, GoMap.lookup_keep]
    cases hlook : rl.limiters.lookup clientID with
    | none => rfl
    | some limiter =>
      have := hserves limiter hlook
      simpa [Option.filter] using this
  | request clock order req =>
    cases hstep
    have hallows : rl.allows conv (.request clock order req) =
        (rl.checkRateLimit conv clock order req).2.allowed := rfl
    obtain ⟨hsame, hwhite⟩ := preCheck_spec clock rl (rl.config.extractClientID (stamped clock req))
      (stamped clock req).timestamp
    rcases checkRateLimit_cases conv clock order rl req with
      ⟨result, hearly, heq⟩ | ⟨limiter, hlimiter, heq⟩
    · -- answered before the bucket
      rw [hallows, heq]
      refine ⟨hsame.config_eq, hsame.rules_eq, Or.inl ⟨by rw [hsame.limiters_eq], ?_⟩⟩
      rintro ⟨rfl, hallowed⟩
      exact hserves rfl (hwhite result hearly hallowed)
    rw [hallows, heq]
    refine ⟨hsame.config_eq, hsame.rules_eq, ?_⟩
    by_cases hid : rl.config.extractClientID (stamped clock req) = clientID
    · subst hid
      exact Or.inr ⟨rfl, limiter, _, congrArg some hlimiter, AList.lookup_insert _,
        applyLimit_checked conv clock _ limiter (stamped clock req)⟩
    · refine Or.inl ⟨?_, fun h => hid h.1⟩
      rw [AList.lookup_insert_ne (Ne.symm hid), hsame.limiters_eq]

/-- The limiter of a request is the client's, or a new one with default limits and a full
bucket. -/
theorem limiterFor_cases {limiter : ClientLimiter}
    (h : rl.limiterFor clientID event = some limiter) :
    rl.limiters.lookup clientID = some limiter ∨
    rl.limiters.lookup clientID = none ∧ limiter.blocked = false ∧
      limiter.rateLimit = rl.config.defaultRateLimit ∧
      limiter.burstLimit = rl.config.defaultBurstLimit ∧
      limiter.tokens = rl.config.defaultBurstLimit := by
  cases event with
  | request clock order req =>
    cases h
    rw [getOrCreateLimiter]
    cases hlook : rl.limiters.lookup clientID with
    | none => exact Or.inr ⟨rfl, rfl, rfl, rfl, rfl⟩
    | some limiter => exact Or.inl rfl
  | addToBlacklist | addToWhitelist | cleanup => simp [limiterFor] at h

/-! ## The limiter as a token bucket -/

/-- The bucket of a client. -/
def bucketOf (clientID : String) (rl : RateLimiter) : Option (Bucket Int) :=
  (rl.limiters.lookup clientID).map ClientLimiter.bucket

/-- What a request that counts takes out of the bucket. -/
def taken (conv : Conversion) (counts : Event → Bool) (rl : RateLimiter) (event : Event) : Int :=
  ClientLimiter.price (counts event && rl.allows conv event)

/-- A request of the client is checked under limits of at most `rate`, with a refill that is not
rounded up, and, if it counts, at most `burst`, where the bucket is not above it or is going to be
capped. -/
def Within (conv : Conversion) (clientID : String) (counts : Event → Bool) (rate burst : Int)
    (rl : RateLimiter) (event : Event) : Prop :=
  rl.Serves clientID event ∧ (counts event = true → event.OfClient rl.config clientID) ∧
  (event.OfClient rl.config clientID → ∀ limiter ∈ rl.limiterFor clientID event,
    let limits := limiter.withLimits (event.rule rl.rules)
    (0 ≤ limits.rateLimit.toInt ∧ limits.rateLimit.toInt ≤ rate) ∧
    conv.RoundsDown (Time.sub event.time limiter.lastRefill) limits.rateLimit ∧
    (counts event = true → limits.burstLimit.toInt ≤ burst ∧
      (limiter.tokens ≤ limits.burstLimit ∨ limiter.lastRefill < event.time)))

variable {counts : Event → Bool} {rate burst lo hi : Int} {events : List Event}

theorem exists_step (conv : Conversion) (rl : RateLimiter) (event : Event) :
    ∃ rl', rl.step conv event = some rl' := by
  cases event <;> exact ⟨_, rfl⟩

theorem taken_nonneg : 0 ≤ taken conv counts rl event := by
  rw [taken, price]
  split <;> decide

theorem metered_of_within (hwithin : rl.Within conv clientID counts rate burst event) :
    Metered (step conv) (bucketOf clientID) (Event.OfClient rl.config clientID) Event.time
      (taken conv counts) rate (1000000000 * burst) rl event := by
  obtain ⟨hserves, hcounts, hlimits⟩ := hwithin
  obtain ⟨rl', hstep⟩ := exists_step conv rl event
  obtain ⟨-, -, ⟨hsame, hnot⟩ | ⟨hmine, limiter, after, hlimiter, hafter, hchecked⟩⟩ :=
    step_cases hserves hstep
  · left
    constructor
    · rw [taken, price, if_neg]
      rw [Bool.and_eq_true]
      exact fun h => hnot ⟨hcounts h.1, h.2⟩
    intro t ht
    obtain rfl : rl' = t := some.inj (hstep.symm.trans ht)
    rw [bucketOf, bucketOf, hsame]
  obtain ⟨⟨hnonneg, hrate⟩, hround, hcap⟩ := hlimits hmine limiter hlimiter
  by_cases hfree : limiter.blocked = true ∧ rl.allows conv event = false ∧
      after.bucket = limiter.bucket
  · -- a blocked client: its limiter is not a new one
    obtain ⟨hblocked, hallows, hbucket⟩ := hfree
    have hlook : rl.limiters.lookup clientID = some limiter :=
      (limiterFor_cases hlimiter).resolve_right fun h => by simp [h.2.1] at hblocked
    left
    constructor
    · rw [taken, hallows, Bool.and_false]
      rfl
    intro t ht
    obtain rfl : rl' = t := some.inj (hstep.symm.trans ht)
    rw [bucketOf, bucketOf, hafter, hlook, map_some, map_some, hbucket]
  right
  refine ⟨hmine, taken_nonneg, rl', limiter.bucket, after.bucket, hstep, ?_, ?_, ?_, ?_⟩
  · intro b hb
    rw [bucketOf] at hb
    rcases limiterFor_cases hlimiter with hlook | ⟨hlook, -⟩ <;> rw [hlook] at hb
    · exact (some.inj hb).symm
    · exact absurd hb (by simp)
  · rw [bucketOf, hafter, map_some]
  · refine hchecked.draw hfree hnonneg hround hrate ?_
    rw [taken, price, price]
    cases rl.allows conv event <;> cases counts event <;> decide
  intro hpos
  -- something is taken only by a request that counts and is allowed
  have hboth : counts event = true ∧ rl.allows conv event = true := by
    by_contra hnot
    rw [taken, price, if_neg (by rwa [Bool.and_eq_true])] at hpos
    exact lt_irrefl _ hpos
  obtain ⟨hburst, hcap⟩ := hcap hboth.1
  rw [taken, hboth.1, hboth.2]
  rw [hboth.2] at hchecked
  have := hchecked.capped hcap
  rw [Bool.and_self, price, if_pos rfl]
  omega

theorem total_eq (conv : Conversion) (counts : Event → Bool) (lo hi : Int) (rl : RateLimiter)
    (events : List Event) : total (step conv) Event.time (taken conv counts) lo hi rl events =
      1000000000 * (rl.allowedIn conv counts lo hi events : Int) := by
  induction events generalizing rl with
  | nil => rfl
  | cons event events ih =>
    obtain ⟨rl', hstep⟩ := exists_step conv rl event
    rw [total, allowedIn, hstep, map_some, map_some, getD_some, getD_some, ih rl', taken, price]
    by_cases hin : lo ≤ event.time ∧ event.time ≤ hi
    · cases counts event <;> cases rl.allows conv event <;> simp [hin, mul_add]
    · cases counts event <;> cases rl.allows conv event <;> simp [hin]

/-- Nanoseconds in seconds. -/
def seconds (t : Int) : ℚ := t / 1000000000

/-- The window bound, for requests that are checked within one rate and one burst. -/
theorem allowedIn_le (hrate : 0 ≤ rate) (hburst : 0 ≤ burst) (hwindow : lo ≤ hi)
    (hwithin : Along (step conv) (Within conv clientID counts rate burst) rl events)
    (horder : Event.InOrder rl.config clientID events) :
    (rl.allowedIn conv counts lo hi events : ℚ) ≤ burst + rate * seconds (hi - lo) := by
  have hmetered : Along (step conv) (Metered (step conv) (bucketOf clientID)
      (Event.OfClient rl.config clientID) Event.time (taken conv counts) rate
      (1000000000 * burst)) rl events := by
    refine Along.mono_of_inv (fun rl' => rl'.config = rl.config) ?_ rfl hwithin
    intro rl₁ event hconfig hwithin
    refine ⟨hconfig ▸ metered_of_within hwithin, fun rl₂ hstep => ?_⟩
    exact (step_cases hwithin.1 hstep).1.trans hconfig
  have htotal := total_le hrate (mul_nonneg (by decide) hburst) hwindow hmetered horder
  rw [total_eq] at htotal
  have hcast : (1000000000 : ℚ) * (rl.allowedIn conv counts lo hi events : ℚ) ≤
      1000000000 * burst + rate * ((hi - lo : Int) : ℚ) := by
    exact_mod_cast htotal
  have hscale : (rate : ℚ) * ((hi - lo : Int) : ℚ) =
      1000000000 * (rate * seconds (hi - lo)) := by
    rw [seconds]
    field_simp
  rw [hscale, ← mul_add] at hcast
  exact le_of_mul_le_mul_left hcast (by norm_num)

/-! ## The default limits -/

/-- The requests of the client come under no rule. -/
def Unruled (clientID : String) (rl : RateLimiter) (event : Event) : Prop :=
  rl.Serves clientID event ∧
    (event.OfClient rl.config clientID → event.rule rl.rules = none)

instance (clientID : String) (rl : RateLimiter) (event : Event) :
    Decidable (rl.Unruled clientID event) :=
  inferInstanceAs (Decidable (_ ∧ _))

/-- The client has the default limits and no more tokens than the default burst. -/
def DefaultBucket (clientID : String) (rl : RateLimiter) : Prop :=
  ∀ limiter ∈ rl.limiters.lookup clientID,
    limiter.rateLimit = rl.config.defaultRateLimit ∧
    limiter.burstLimit = rl.config.defaultBurstLimit ∧
    limiter.tokens ≤ rl.config.defaultBurstLimit

theorem DefaultBucket.limiterFor (h : rl.DefaultBucket clientID) {limiter : ClientLimiter}
    (hlimiter : rl.limiterFor clientID event = some limiter) :
    limiter.rateLimit = rl.config.defaultRateLimit ∧
    limiter.burstLimit = rl.config.defaultBurstLimit ∧
    limiter.tokens ≤ rl.config.defaultBurstLimit := by
  rcases limiterFor_cases hlimiter with hlook | ⟨-, -, hrate, hburst, htokens⟩
  · exact h limiter hlook
  · exact ⟨hrate, hburst, htokens ▸ Int64.le_refl _⟩

theorem DefaultBucket.step (h : rl.DefaultBucket clientID) (hunruled : rl.Unruled clientID event)
    (hstep : rl.step conv event = some rl') : rl'.DefaultBucket clientID := by
  obtain ⟨hconfig, -, ⟨hsame, -⟩ | ⟨hmine, limiter, after, hlimiter, hafter, hchecked⟩⟩ :=
    step_cases hunruled.1 hstep
  · rw [DefaultBucket, hsame, hconfig]
    exact h
  obtain ⟨hrate, hburst, htokens⟩ := h.limiterFor hlimiter
  rw [hunruled.2 hmine] at hchecked
  intro last hlast
  obtain rfl := some.inj (hafter.symm.trans hlast)
  rw [hconfig]
  refine ⟨(hchecked.rateLimit_eq (by simp)).trans hrate, hchecked.burstLimit_eq.trans hburst, ?_⟩
  have hle := hchecked.tokens_le (by rw [withLimits, hburst]; exact htokens)
  rwa [withLimits, hburst] at hle

/-- **The default limits bound the rate.** A client that is not on the whitelist and whose
requests come under no rule gets, in every window, at most the default burst and the default
rate times the length of the window, whatever other clients do. -/
theorem default_bound (hexact : conv.Exact) (hrate : 0 ≤ rl.config.defaultRateLimit.toInt)
    (hburst : 0 ≤ rl.config.defaultBurstLimit.toInt) (hnew : rl.limiters.lookup clientID = none)
    (hunruled : Along (step conv) (Unruled clientID) rl events)
    (horder : Event.InOrder rl.config clientID events) (hwindow : lo ≤ hi) :
    (rl.allowedIn conv (fun event => decide (event.OfClient rl.config clientID)) lo hi events : ℚ) ≤
      rl.config.defaultBurstLimit.toInt + rl.config.defaultRateLimit.toInt * seconds (hi - lo) := by
  refine allowedIn_le hrate hburst hwindow ?_ horder
  refine Along.mono_of_inv
    (fun rl' => rl'.config = rl.config ∧ rl'.DefaultBucket clientID) ?_ ?_ hunruled
  · rintro rl₁ event ⟨hconfig, hdefault⟩ hevent
    refine ⟨⟨hevent.1, fun h => hconfig ▸ of_decide_eq_true h, fun hmine limiter hlimiter => ?_⟩,
      fun rl₂ hstep => ?_⟩
    · obtain ⟨hr, hb, ht⟩ := hdefault.limiterFor hlimiter
      dsimp only
      rw [hevent.2 hmine, withLimits, hr, hb, hconfig]
      rw [hconfig] at ht
      exact ⟨⟨hrate, le_rfl⟩, hexact.roundsDown _ hrate, fun _ => ⟨le_rfl, Or.inl ht⟩⟩
    · exact ⟨(step_cases hevent.1 hstep).1.trans hconfig, hdefault.step hevent hstep⟩
  · exact ⟨rfl, fun limiter h => absurd (hnew.symm.trans h) (by simp)⟩

/-! ## The limits of a rule -/

/-- The rate that a request is meant to be checked with: its rule's, or the default. -/
def intendedRate (rl : RateLimiter) (event : Event) : Int64 :=
  match event.rule rl.rules with
  | some rule => rule.rateLimit
  | none => rl.config.defaultRateLimit

/-- A request of the client has a rate that is not negative and not above the rule's, its refill is
not rounded up, and under the rule it finds a bucket that is not above the burst or that is going
to be capped. -/
def Steady (conv : Conversion) (clientID : String) (r : RateLimitRule) (rl : RateLimiter)
    (event : Event) : Prop :=
  event.OfClient rl.config clientID →
    (0 ≤ (rl.intendedRate event).toInt ∧ (rl.intendedRate event).toInt ≤ r.rateLimit.toInt) ∧
    ∀ limiter ∈ rl.limiterFor clientID event,
      conv.RoundsDown (Time.sub event.time limiter.lastRefill) (rl.intendedRate event) ∧
      (event.rule rl.rules = some r →
        limiter.tokens ≤ r.burstLimit ∨ limiter.lastRefill < event.time)

instance (conv : Conversion) (clientID : String) (r : RateLimitRule) (rl : RateLimiter)
    (event : Event) : Decidable (rl.Steady conv clientID r event) :=
  inferInstanceAs (Decidable (_ → _))

/-- A rule with the default limits that never throttles. -/
def LikeDefault (config : RateLimitConfig) (rule : RateLimitRule) : Prop :=
  rule.rateLimit = config.defaultRateLimit ∧ rule.burstLimit = config.defaultBurstLimit ∧
    ∀ action ∈ rule.actions, action.type ≠ .throttle

instance (config : RateLimitConfig) (rule : RateLimitRule) : Decidable (LikeDefault config rule) :=
  inferInstanceAs (Decidable (_ ∧ _))

/-- Before a request of the client under no rule come only such, or rules with default limits.
-/
def KeepsDefaults (config : RateLimitConfig) (rules : GoMap String RateLimitRule)
    (clientID : String) (events : List Event) : Prop :=
  events.Pairwise fun e e' => e.OfClient config clientID → e'.OfClient config clientID →
    e'.rule rules = none → ∀ rule ∈ e.rule rules, LikeDefault config rule

instance (config : RateLimitConfig) (rules : GoMap String RateLimitRule) (clientID : String)
    (events : List Event) : Decidable (KeepsDefaults config rules clientID events) :=
  inferInstanceAs (Decidable (List.Pairwise _ _))

/-- A request of the client under no rule is checked with the default limits. -/
def DefaultChecked (clientID : String) (rl : RateLimiter) (event : Event) : Prop :=
  event.OfClient rl.config clientID → event.rule rl.rules = none →
    ∀ limiter ∈ rl.limiterFor clientID event,
      limiter.rateLimit = rl.config.defaultRateLimit ∧
      limiter.burstLimit = rl.config.defaultBurstLimit

/-- The requests of the client that come under the rule. -/
def countsUnder (rl : RateLimiter) (clientID : String) (r : RateLimitRule) (event : Event) : Bool :=
  decide (event.OfClient rl.config clientID ∧ event.rule rl.rules = some r)

/-- If a request under no rule is still to come, the client has the default limits. -/
def DefaultAhead (clientID : String) (rl : RateLimiter) (events : List Event) : Prop :=
  (∃ event ∈ events, event.OfClient rl.config clientID ∧ event.rule rl.rules = none) →
    ∀ limiter ∈ rl.limiters.lookup clientID,
      limiter.rateLimit = rl.config.defaultRateLimit ∧
      limiter.burstLimit = rl.config.defaultBurstLimit

variable {r : RateLimitRule}

theorem DefaultAhead.checked (h : rl.DefaultAhead clientID (event :: events)) :
    rl.DefaultChecked clientID event := by
  intro hmine hnone limiter hlimiter
  rcases limiterFor_cases hlimiter with hlook | ⟨-, -, hrate, hburst, -⟩
  · exact h ⟨event, mem_cons_self, hmine, hnone⟩ limiter hlook
  · exact ⟨hrate, hburst⟩

theorem DefaultAhead.step (h : rl.DefaultAhead clientID (event :: events))
    (hkeeps : KeepsDefaults rl.config rl.rules clientID (event :: events))
    (hserves : rl.Serves clientID event) (hstep : rl.step conv event = some rl') :
    rl'.DefaultAhead clientID events := by
  obtain ⟨hconfig, hrules, hcases⟩ := step_cases hserves hstep
  rw [DefaultAhead, hconfig, hrules]
  rintro ⟨later, hlater, hmine', hnone⟩ last hlast
  rcases hcases with ⟨hsame, -⟩ | ⟨hmine, limiter, after, hlimiter, hafter, hchecked⟩
  · exact h ⟨later, mem_cons_of_mem _ hlater, hmine', hnone⟩ last (hsame ▸ hlast)
  obtain rfl := some.inj (hafter.symm.trans hlast)
  have hlike := (pairwise_cons.mp hkeeps).1 later hlater hmine hmine' hnone
  cases hrule : event.rule rl.rules with
  | none =>
    obtain ⟨hrate, hburst⟩ := h.checked hmine hrule limiter hlimiter
    rw [hrule] at hchecked
    exact ⟨(hchecked.rateLimit_eq (by simp)).trans hrate, hchecked.burstLimit_eq.trans hburst⟩
  | some rule =>
    obtain ⟨hrate, hburst, hthrottle⟩ := hlike rule hrule
    rw [hrule] at hchecked
    refine ⟨(hchecked.rateLimit_eq ?_).trans hrate, hchecked.burstLimit_eq.trans hburst⟩
    rintro _ ⟨⟩
    exact hthrottle

theorem within_of_steady (hserves : rl.Serves clientID event)
    (hsteady : rl.Steady conv clientID r event) (hchecked : rl.DefaultChecked clientID event) :
    rl.Within conv clientID (rl.countsUnder clientID r) r.rateLimit.toInt r.burstLimit.toInt
      event := by
  refine ⟨hserves, fun h => (of_decide_eq_true h).1, fun hmine limiter hlimiter => ?_⟩
  obtain ⟨hbounds, hlimits⟩ := hsteady hmine
  obtain ⟨hround, hcap⟩ := hlimits limiter hlimiter
  have hintended : (limiter.withLimits (event.rule rl.rules)).rateLimit =
      rl.intendedRate event := by
    rw [intendedRate]
    cases hrule : event.rule rl.rules with
    | none => exact (hchecked hmine hrule limiter hlimiter).1
    | some rule => rfl
  dsimp only
  rw [hintended]
  refine ⟨hbounds, hround, fun h => ?_⟩
  have hrule := (of_decide_eq_true h).2
  rw [hrule]
  exact ⟨le_rfl, hcap hrule⟩

/-- A run goes on to its end. -/
theorem exists_exec (conv : Conversion) (rl : RateLimiter) (events : List Event) :
    ∃ rl', exec (step conv) rl events = some rl' := by
  induction events generalizing rl with
  | nil => exact ⟨rl, rfl⟩
  | cons event events ih => cases event <;> exact ih _

theorem allowedIn_append {events' : List Event} (h : exec (step conv) rl events = some rl') :
    rl.allowedIn conv counts lo hi (events ++ events') =
      rl.allowedIn conv counts lo hi events + rl'.allowedIn conv counts lo hi events' := by
  induction events generalizing rl with
  | nil =>
    cases h
    exact (Nat.zero_add _).symm
  | cons event events ih =>
    obtain ⟨rl₁, hstep, hrest⟩ := bind_eq_some_iff.mp h
    rw [cons_append, allowedIn, allowedIn, hstep, map_some, map_some, getD_some, getD_some,
      ih hrest, Nat.add_assoc]

theorem allowedIn_eq_zero (h : ∀ event ∈ events, counts event = false) :
    rl.allowedIn conv counts lo hi events = 0 := by
  induction events generalizing rl with
  | nil => rfl
  | cons event events ih =>
    obtain ⟨hevent, hevents⟩ := forall_mem_cons.mp h
    rw [allowedIn, hevent, if_neg (by simp), Nat.zero_add]
    cases event <;> exact ih hevents

/-- Configuration and rules stay as they are in a run. -/
theorem same_rules (h : Along (step conv) (Serves clientID) rl events) :
    ∀ rl' ∈ trace (step conv) rl events, rl'.config = rl.config ∧ rl'.rules = rl.rules := by
  refine h.forall_trace ⟨rfl, rfl⟩ fun rl₁ event rl₂ hsame hserves hstep => ?_
  obtain ⟨hconfig, hrules, -⟩ := step_cases hserves hstep
  exact ⟨hconfig.trans hsame.1, hrules.trans hsame.2⟩

/-- Every request under no rule finds the default limits. -/
theorem defaultChecked_along (hserves : Along (step conv) (Serves clientID) rl events)
    (hkeeps : KeepsDefaults rl.config rl.rules clientID events)
    (hahead : rl.DefaultAhead clientID events) :
    Along (step conv) (DefaultChecked clientID) rl events := by
  induction events generalizing rl with
  | nil => trivial
  | cons event events ih =>
    refine ⟨hahead.checked, fun rl' hstep => ?_⟩
    obtain ⟨hconfig, hrules, -⟩ := step_cases hserves.1 hstep
    refine ih (hserves.2 rl' hstep) ?_ (hahead.step hkeeps hserves.1 hstep)
    rw [hconfig, hrules]
    exact (pairwise_cons.mp hkeeps).2

/-- **The limits of a rule bound the rate.** The requests under the rule are, in every window, at
most its burst and its rate times the length of the window, and requests under no rule are checked
with the default limits, for a client whose requests between those under the rule (`middle`) do not
raise its rate and do not leave more tokens than its burst, and whose requests under no rule find
the default limits. -/
theorem rule_bound {before middle after : List Event} (hrate : 0 ≤ r.rateLimit.toInt)
    (hburst : 0 ≤ r.burstLimit.toInt) (hnew : rl.limiters.lookup clientID = none)
    (hevents : events = before ++ (middle ++ after))
    (hothers : ∀ event ∈ before ++ after, rl.countsUnder clientID r event = false)
    (hserves : Along (step conv) (Serves clientID) rl events)
    (hsteady : ∀ rl' ∈ exec (step conv) rl before,
      Along (step conv) (Steady conv clientID r) rl' middle)
    (hkeeps : KeepsDefaults rl.config rl.rules clientID events)
    (horder : Event.InOrder rl.config clientID events) :
    (∀ lo hi, lo ≤ hi → (rl.allowedIn conv (rl.countsUnder clientID r) lo hi events : ℚ) ≤
      r.burstLimit.toInt + r.rateLimit.toInt * seconds (hi - lo)) ∧
    Along (step conv) (DefaultChecked clientID) rl events := by
  have hahead : rl.DefaultAhead clientID events := fun _ limiter h =>
    absurd (hnew.symm.trans h) (by simp)
  have hchecked := defaultChecked_along hserves hkeeps hahead
  refine ⟨fun lo hi hwindow => ?_, hchecked⟩
  subst hevents
  obtain ⟨rl₁, hfirst⟩ := exists_exec conv rl before
  obtain ⟨rl₂, hmiddle⟩ := exists_exec conv rl₁ middle
  have hserves₁ := (along_append.mp ((along_append.mp hserves).2 rl₁ hfirst)).1
  have hchecked₁ := (along_append.mp ((along_append.mp hchecked).2 rl₁ hfirst)).1
  have hsame := same_rules hserves rl₁ (trace_subset (prefix_append _ _) (exec_mem_trace hfirst))
  have hwithin : Along (step conv) (Within conv clientID (rl.countsUnder clientID r)
      r.rateLimit.toInt r.burstLimit.toInt) rl₁ middle := by
    refine Along.mono_of_inv (fun rl' => rl'.config = rl.config ∧ rl'.rules = rl.rules) ?_ hsame
      ((hserves₁.and (hsteady rl₁ hfirst)).and hchecked₁)
    rintro rl₃ event ⟨hconfig, hrules⟩ ⟨⟨hserves, hsteady⟩, hdefault⟩
    have hcounts : rl₃.countsUnder clientID r = rl.countsUnder clientID r := by
      funext event
      rw [countsUnder, countsUnder, hconfig, hrules]
    refine ⟨hcounts ▸ within_of_steady hserves hsteady hdefault, fun rl₄ hstep => ?_⟩
    obtain ⟨hconfig', hrules', -⟩ := step_cases hserves hstep
    exact ⟨hconfig'.trans hconfig, hrules'.trans hrules⟩
  have horder₁ : Event.InOrder rl₁.config clientID middle := by
    rw [hsame.1]
    exact List.Pairwise.sublist ((sublist_append_left _ _).trans (sublist_append_right _ _)) horder
  -- only the requests in the middle count
  obtain ⟨hbefore, hafter⟩ := forall_mem_append.mp hothers
  rw [allowedIn_append hfirst, allowedIn_append hmiddle, allowedIn_eq_zero hbefore,
    allowedIn_eq_zero hafter, Nat.zero_add, Nat.add_zero]
  exact allowedIn_le hrate hburst hwindow hwithin horder₁

/-! ## Requests against the rules of a new limiter -/

/-- A conversion that gives the smallest number for everything that does not fit. -/
def wrapConversion : Conversion where
  toInt64 n :=
    if -9223372036854775808 ≤ n ∧ n ≤ 9223372036854775807 then Int64.ofInt n else Int64.minValue
  infinity := Int64.minValue
  product elapsed rate := Int.tdiv (elapsed.toInt * rate.toInt) 1000000000
  exact n hlow hhigh := by
    rw [if_pos ⟨hlow, hhigh⟩]
    exact Int64.toInt_ofInt_of_le hlow (by omega)

/-- A limiter with the default configuration. -/
def freshLimiter : RateLimiter := newRateLimiter ⟨0, 0, 0, 0, [], "", false, false, 0⟩ 0

/-- A request of one client without a time stamp, handled just after its arrival. -/
def requestAt (time : Int) (method path : String) : Event :=
  .request ⟨time, time + 1, time + 1, time + 1, time + 1, time + 1, time + 1, time + 1⟩
    IterationOrder.asGiven ⟨method, path, "10.0.0.1", "", ∅, 0, 0, ""⟩

/-- Requests that come under no rule. -/
def plainRequests : List Event :=
  [requestAt 1000 "GET" "/health", requestAt 2000 "GET" "/health", requestAt 2000 "GET" "/health"]

theorem default_bound_plain : freshLimiter.allowedIn wrapConversion
      (fun event => decide (event.OfClient freshLimiter.config "ip:10.0.0.1")) 1000 2000
        plainRequests = 3 ∧
      ((3 : Nat) : ℚ) ≤ (200 : Int) + (100 : Int) * seconds (2000 - 1000) := by
  have hcount : freshLimiter.allowedIn wrapConversion
      (fun event => decide (event.OfClient freshLimiter.config "ip:10.0.0.1")) 1000 2000
        plainRequests = 3 := by decide +kernel
  refine ⟨hcount, ?_⟩
  have hbound := @default_bound wrapConversion freshLimiter "ip:10.0.0.1" 1000 2000 plainRequests
    (fun _ _ => rfl) (by decide +kernel) (by decide +kernel) (by decide +kernel) (by decide +kernel)
    (by decide +kernel) (by decide)
  rw [hcount] at hbound
  exact hbound

/-- The rule for logins of a new limiter. -/
def authStrict : RateLimitRule :=
  ⟨"auth_strict", "/api/auth/*", "POST", 5, 10, 1000000000, 100, [],
    [⟨.block, 900000000000, "high"⟩], true⟩

/-- Three logins. -/
def loginRequests : List Event :=
  [requestAt 2000 "POST" "/api/auth/login", requestAt 2000 "POST" "/api/auth/login",
    requestAt 300000000 "POST" "/api/auth/login"]

/-- A request under no rule comes before the logins and a read after them. -/
theorem rule_bound_logins :
    let events := requestAt 1000 "GET" "/health" :: loginRequests ++
      [requestAt 400000000 "GET" "/api/data/k"]
    freshLimiter.allowedIn wrapConversion (freshLimiter.countsUnder "ip:10.0.0.1" authStrict) 1000
        300000000 events = 3 ∧
      ((3 : Nat) : ℚ) ≤ (10 : Int) + (5 : Int) * seconds (300000000 - 1000) := by
  intro events
  have hcount : freshLimiter.allowedIn wrapConversion
      (freshLimiter.countsUnder "ip:10.0.0.1" authStrict) 1000 300000000 events = 3 := by
    decide +kernel
  refine ⟨hcount, ?_⟩
  have hbound := (@rule_bound wrapConversion freshLimiter "ip:10.0.0.1" events authStrict
    [requestAt 1000 "GET" "/health"] loginRequests [requestAt 400000000 "GET" "/api/data/k"]
    (by decide +kernel) (by decide +kernel) (by decide +kernel) rfl (by decide +kernel)
    (by decide +kernel) (by decide +kernel) (by decide +kernel) (by decide +kernel)).1 1000
    300000000 (by decide)
  rw [hcount] at hbound
  exact hbound

/-- Eleven logins in a few microseconds, a read, ten more logins, and a request under no
rule. -/
def mixedRequests : List Event :=
  requestAt 1000 "POST" "/api/auth/login" ::
    (List.replicate 10 (requestAt 2000 "POST" "/api/auth/login") ++
      requestAt 100000000 "GET" "/api/data/k" ::
        List.replicate 10 (requestAt 100001000 "POST" "/api/auth/login"))

/-- All 21 logins of a tenth of a second are allowed, where burst and rate of their rule give
ten and a half; a request under no rule is then checked with the limits 5 and 10 of the logins.
-/
theorem shared_limiter_counterexample :
    Event.InOrder freshLimiter.config "ip:10.0.0.1" mixedRequests ∧
    freshLimiter.allowedIn wrapConversion (freshLimiter.countsUnder "ip:10.0.0.1" authStrict) 1000
        100001000 mixedRequests = 21 ∧
    ((authStrict.burstLimit.toInt : ℚ) + authStrict.rateLimit.toInt * seconds (100001000 - 1000) <
      21) ∧ (requestAt 100002000 "GET" "/health").rule freshLimiter.rules = none ∧
    ((exec (step wrapConversion) freshLimiter mixedRequests).bind
      (limiterFor · "ip:10.0.0.1" (requestAt 100002000 "GET" "/health"))).map
        (fun limiter => (limiter.rateLimit, limiter.burstLimit)) = some (5, 10) ∧
    (freshLimiter.config.defaultRateLimit, freshLimiter.config.defaultBurstLimit) = (100, 200) := by
  refine ⟨by decide +kernel, by decide +kernel, ?_, by decide +kernel, by decide +kernel,
    by decide +kernel⟩
  have hburst : authStrict.burstLimit.toInt = 10 := by decide
  have hrate : authStrict.rateLimit.toInt = 5 := by decide
  rw [hburst, hrate, seconds]
  norm_num

end RateLimiter

end DistributedKV.Security
