import DistributedKV.Lib.GoMap
import DistributedKV.Lib.GoTime
import Mathlib.Data.List.Infix

/-!
# Rate limiting (`ratelimit.go`)

Every client has one token bucket, a `ClientLimiter`. A request may be answered before it comes to
the bucket (whitelist, blacklist, global limit). Otherwise the bucket is refilled for the time
since its last refill, and the request is allowed if there is a token for it, under the limits of
the matching rule with the best priority, which are written into the limiter, or under those that
the limiter has.

Times are nanoseconds since the zero time. `int64` and `time.Duration` are 64-bit; sums wrap
around. A `Conversion` says how the product of a refill is rounded and how a floating-point number
is cut off to 64 bits; the quotients of the global limit and of `calculateRetryAfter` are the exact
rational ones. The clock readings of a call (`Readings`) and the order of the loop over the rules
are inputs. Counters, statistics, headers and metadata that nothing reads are left out.
-/

namespace DistributedKV.Security

/-- The conversion of a floating-point number to `int64`, given the number without its fraction.
A number that fits is converted exactly; the language leaves the others open. -/
structure Conversion where
  toInt64 : Int → Int64
  infinity : Int64
  /-- `elapsed.Seconds() * float64(rate)`, without its fraction. -/
  product : Int64 → Int64 → Int
  exact : ∀ n, -9223372036854775808 ≤ n → n ≤ 9223372036854775807 → (toInt64 n).toInt = n

/-- What `IdentifyBy` may ask for; every other string is ignored. -/
inductive IdentifyMethod where
  | ip
  | userID
  | header
  | userAgent
  | other
deriving DecidableEq, Repr

/-- `RateLimitConfig`. -/
structure RateLimitConfig where
  globalRateLimit : Int64
  defaultRateLimit : Int64
  defaultBurstLimit : Int64
  windowSize : Int64
  identifyBy : List IdentifyMethod
  headerName : String
  enableBlacklist : Bool
  enableWhitelist : Bool
  maxIdleTime : Int64

/-- `ClientLimiter`; `lastSeen` is the field of its statistics that the cleanup reads. -/
structure ClientLimiter where
  clientID : String
  rateLimit : Int64
  burstLimit : Int64
  windowSize : Int64
  tokens : Int64
  lastRefill : Int
  blocked : Bool
  blockedUntil : Int
  lastSeen : Int

/-- `ViolationRecord`, without the request rate. -/
structure ViolationRecord where
  timestamp : Int
  limit : Int64
  severity : String
  action : String

/-- A value of the type `interface{}`: a string, an `int64`, or something else, equal to
neither. -/
inductive Value where
  | string (s : String)
  | int64 (n : Int64)
  | other
deriving DecidableEq, Repr

/-- What a condition looks at; no other type matches. -/
inductive ConditionType where
  | header
  | query
  | size
  | other
deriving DecidableEq, Repr

/-- How a condition compares; no other operator holds. -/
inductive ConditionOperator where
  | eq
  | ne
  | gt
  | lt
  | contains
  | other
deriving DecidableEq, Repr

/-- `RuleCondition`. -/
structure RuleCondition where
  type : ConditionType
  field : String
  operator : ConditionOperator
  value : Value
deriving DecidableEq, Repr

/-- What a rule does to a violator; every other string does nothing. -/
inductive ActionType where
  | block
  | throttle
  | alert
  | other
deriving DecidableEq, Repr

/-- `RuleAction`. -/
structure RuleAction where
  type : ActionType
  duration : Int64
  severity : String
deriving DecidableEq, Repr

/-- `RateLimitRule`. -/
structure RateLimitRule where
  id : String
  pattern : String
  method : String
  rateLimit : Int64
  burstLimit : Int64
  windowSize : Int64
  priority : Int64
  conditions : List RuleCondition
  actions : List RuleAction
  isActive : Bool
deriving DecidableEq, Repr

/-- `BlacklistEntry`. -/
structure BlacklistEntry where
  expiresAt : Int
  isPermanent : Bool

/-- `WhitelistEntry`. -/
structure WhitelistEntry where
  expiresAt : Option Int
  isPermanent : Bool

/-- `RateLimitResult`. -/
structure RateLimitResult where
  allowed : Bool
  remainingTokens : Int64 := 0
  resetTime : Int := 0
  retryAfter : Int64 := 0
  rateLimit : Int64 := 0
  windowSize : Int64 := 0
  violation : Option ViolationRecord := none

/-- `RateLimitRequest`. -/
structure RateLimitRequest where
  method : String
  path : String
  ipAddress : String
  userAgent : String
  headers : GoMap String String
  size : Int64
  timestamp : Int
  userID : String

/-- `RateLimiter`; the total of requests and the reset time are fields of its global
statistics. -/
structure RateLimiter where
  config : RateLimitConfig
  limiters : GoMap String ClientLimiter
  totalRequests : Int64
  lastResetTime : Int
  rules : GoMap String RateLimitRule
  blacklist : GoMap String BlacklistEntry
  whitelist : GoMap String WhitelistEntry

/-- What the clock shows at the places of one call that read it. -/
structure Readings where
  arrival : Int
  whitelist : Int
  reset : Int
  blacklist : Int
  global : Int
  created : Int
  action : Int
  retry : Int

/-! ## Which rule applies -/

/-- `unicode.IsSpace`. -/
def isSpace (c : Char) : Bool :=
  c.toNat ∈ [0x09, 0x0a, 0x0b, 0x0c, 0x0d, 0x20, 0x85, 0xa0, 0x1680, 0x2028, 0x2029, 0x202f,
    0x205f, 0x3000] || (0x2000 ≤ c.toNat && c.toNat ≤ 0x200a)

/-- `strings.TrimSpace`. -/
def trimSpace (s : List Char) : List Char :=
  ((s.dropWhile isSpace).reverse.dropWhile isSpace).reverse

/-- `patternMatches`. -/
def patternMatches (pattern path : String) : Bool :=
  if pattern = "*" then true
  else if pattern.toList.getLast? = some '*' then
    pattern.toList.dropLast.isPrefixOf path.toList
  else pattern = path

/-- `compareConditionValue`. -/
def compareConditionValue (actual : Value) (operator : ConditionOperator) (expected : Value) :
    Bool :=
  match operator, actual, expected with
  | .eq, _, _ => actual = expected
  | .ne, _, _ => actual ≠ expected
  | .gt, .int64 a, .int64 e => a > e
  | .lt, .int64 a, .int64 e => a < e
  | .contains, .string a, .string e => decide (e.toList <:+: a.toList)
  | _, _, _ => false

/-- `conditionMatches`. -/
def conditionMatches (condition : RuleCondition) (req : RateLimitRequest) : Bool :=
  match condition.type with
  | .header =>
    -- a missing header reads as the empty string
    compareConditionValue (.string ((req.headers.lookup condition.field).getD ""))
      condition.operator condition.value
  | .query => compareConditionValue (.string "") condition.operator condition.value
  | .size => compareConditionValue (.int64 req.size) condition.operator condition.value
  | .other => false

/-- `ruleMatches`. -/
def ruleMatches (rule : RateLimitRule) (req : RateLimitRequest) : Bool :=
  patternMatches rule.pattern req.path &&
  (rule.method = "*" ||
    (rule.method.toList.splitOn ',').any fun method => trimSpace method = req.method.toList) &&
  rule.conditions.all fun condition => conditionMatches condition req

/-- One round of the loop of `findMatchingRule`: the best rule so far and its priority. -/
def betterRule (req : RateLimitRequest) (best : Option RateLimitRule × Int64)
    (rule : RateLimitRule) : Option RateLimitRule × Int64 :=
  if rule.isActive && ruleMatches rule req && decide (rule.priority < best.2) then
    (some rule, rule.priority)
  else best

/-- `findMatchingRule`: the active rule that matches with the smallest priority. -/
def findMatchingRule (rules : GoMap String RateLimitRule)
    (order : IterationOrder ((_ : String) × RateLimitRule)) (req : RateLimitRequest) :
    Option RateLimitRule :=
  ((order.pick rules.entries).foldl (fun best entry => betterRule req best entry.2)
    (none, 9223372036854775807)).1

/-! ## One client's bucket -/

namespace ClientLimiter

variable (conv : Conversion)

/-- `refillTokens`. -/
def refillTokens (limiter : ClientLimiter) (now : Int) : ClientLimiter :=
  let elapsed := Time.sub now limiter.lastRefill
  if elapsed ≤ 0 then limiter
  else
    let tokensToAdd := conv.toInt64 (conv.product elapsed limiter.rateLimit)
    let tokens := limiter.tokens + tokensToAdd
    { limiter with
      tokens := if tokens > limiter.burstLimit then limiter.burstLimit else tokens
      lastRefill := now }

/-- One round of the loop of `applyRuleActions`. -/
def applyRuleAction (clock : Int) (out : ClientLimiter × ViolationRecord) (action : RuleAction) :
    ClientLimiter × ViolationRecord :=
  match action.type with
  | .block =>
    ({ out.1 with blocked := true, blockedUntil := Time.add clock action.duration },
      { out.2 with action := "blocked_by_rule", severity := action.severity })
  | .throttle =>
    ({ out.1 with rateLimit := out.1.rateLimit / 2 }, { out.2 with action := "throttled" })
  | .alert => out
  | .other => out

/-- `applyRuleActions`. -/
def applyRuleActions (clock : Int) (limiter : ClientLimiter) (actions : List RuleAction)
    (violation : ViolationRecord) : ClientLimiter × ViolationRecord :=
  actions.foldl (applyRuleAction clock) (limiter, violation)

/-- `calculateResetTime`. -/
def calculateResetTime (limiter : ClientLimiter) : Int :=
  Time.add limiter.lastRefill limiter.windowSize

/-- `calculateRetryAfter`. -/
def calculateRetryAfter (clock : Int) (limiter : ClientLimiter) : Int64 :=
  if limiter.blocked then Time.sub limiter.blockedUntil clock
  else if limiter.rateLimit = 0 then conv.infinity
  else conv.toInt64 (Int.tdiv 1000000000 limiter.rateLimit.toInt)

/-- `processRateLimit`, for a client that is not blocked. -/
def takeToken (clock : Readings) (limiter : ClientLimiter) (now : Int) (actions : List RuleAction) :
    ClientLimiter × RateLimitResult :=
  let limiter := { limiter.refillTokens conv now with lastSeen := now }
  if limiter.tokens > 0 then
    let limiter := { limiter with tokens := limiter.tokens - 1 }
    (limiter,
      { allowed := true
        remainingTokens := limiter.tokens
        resetTime := limiter.calculateResetTime
        rateLimit := limiter.rateLimit
        windowSize := limiter.windowSize })
  else
    let out := limiter.applyRuleActions clock.action actions
      ⟨now, limiter.rateLimit, "medium", "rate_limited"⟩
    (out.1,
      { allowed := false
        resetTime := out.1.calculateResetTime
        retryAfter := out.1.calculateRetryAfter conv clock.retry
        rateLimit := out.1.rateLimit
        windowSize := out.1.windowSize
        violation := some out.2 })

/-- `processRateLimit`; without a rule there are no actions. -/
def processRateLimit (clock : Readings) (limiter : ClientLimiter) (req : RateLimitRequest)
    (rule : Option RateLimitRule) : ClientLimiter × RateLimitResult :=
  let now := req.timestamp
  if limiter.blocked && decide (now < limiter.blockedUntil) then
    (limiter,
      { allowed := false
        retryAfter := Time.sub limiter.blockedUntil now
        violation := some ⟨now, 0, "medium", "blocked_temporary"⟩ })
  else
    let limiter :=
      if limiter.blocked && decide (limiter.blockedUntil < now) then
        { limiter with blocked := false, blockedUntil := 0 }
      else limiter
    limiter.takeToken conv clock now ((rule.map RateLimitRule.actions).getD [])

/-- `applyRuleLimit`: the limits of the rule are written into the limiter. -/
def applyRuleLimit (clock : Readings) (limiter : ClientLimiter) (req : RateLimitRequest)
    (rule : RateLimitRule) : ClientLimiter × RateLimitResult :=
  processRateLimit conv clock
    { limiter with
      rateLimit := rule.rateLimit, burstLimit := rule.burstLimit, windowSize := rule.windowSize }
    req (some rule)

/-- `applyDefaultLimit`: the limits stay what they are. -/
def applyDefaultLimit (clock : Readings) (limiter : ClientLimiter) (req : RateLimitRequest) :
    ClientLimiter × RateLimitResult :=
  processRateLimit conv clock limiter req none

end ClientLimiter

/-! ## All clients -/

/-- `extractClientID`. -/
def RateLimitConfig.extractClientID (config : RateLimitConfig) (req : RateLimitRequest) : String :=
  let identifiers := config.identifyBy.filterMap fun
    | .ip => if req.ipAddress ≠ "" then some ("ip:" ++ req.ipAddress) else none
    | .userID => if req.userID ≠ "" then some ("user:" ++ req.userID) else none
    | .header => (req.headers.lookup config.headerName).map ("header:" ++ ·)
    | .userAgent => if req.userAgent ≠ "" then some ("ua:" ++ req.userAgent) else none
    | .other => none
  if identifiers = [] then "unknown" else "|".intercalate identifiers

namespace RateLimiter

/-- `initializeDefaultRules`. -/
def defaultRules (config : RateLimitConfig) : List RateLimitRule :=
  [⟨"default_api", "/api/*", "*", config.defaultRateLimit, config.defaultBurstLimit,
      config.windowSize, 1000, [], [], true⟩,
    ⟨"auth_strict", "/api/auth/*", "POST", 5, 10, 1000000000, 100, [],
      [⟨.block, 900000000000, "high"⟩], true⟩,
    ⟨"read_lenient", "/api/data/*", "GET", 500, 1000, 1000000000, 500, [], [], true⟩,
    ⟨"write_strict", "/api/data/*", "POST,PUT,DELETE", 50, 100, 1000000000, 200, [], [], true⟩]

/-- `NewRateLimiter`: what is zero in the configuration gets its default. -/
def newRateLimiter (config : RateLimitConfig) (clock : Int) : RateLimiter :=
  let config := { config with
    defaultRateLimit := if config.defaultRateLimit = 0 then 100 else config.defaultRateLimit
    defaultBurstLimit := if config.defaultBurstLimit = 0 then 200 else config.defaultBurstLimit
    windowSize := if config.windowSize = 0 then 1000000000 else config.windowSize
    maxIdleTime := if config.maxIdleTime = 0 then 3600000000000 else config.maxIdleTime
    identifyBy := if config.identifyBy = [] then [.ip, .userID] else config.identifyBy
    headerName := if config.headerName = "" then "X-Client-ID" else config.headerName }
  { config
    limiters := ∅
    totalRequests := 0
    lastResetTime := clock
    rules := (defaultRules config).foldl (fun rules rule => rules.insert rule.id rule) ∅
    blacklist := ∅
    whitelist := ∅ }

/-- `isWhitelisted`; an entry that has expired is deleted. -/
def isWhitelisted (clock : Int) (rl : RateLimiter) (clientID : String) : RateLimiter × Bool :=
  match rl.whitelist.lookup clientID with
  | none => (rl, false)
  | some entry =>
    if entry.expiresAt.any (· < clock) then
      ({ rl with whitelist := rl.whitelist.erase clientID }, false)
    else (rl, true)

/-- `isBlacklisted`; an entry that has expired is deleted. -/
def isBlacklisted (clock : Int) (rl : RateLimiter) (clientID : String) : RateLimiter × Bool :=
  match rl.blacklist.lookup clientID with
  | none => (rl, false)
  | some entry =>
    if !entry.isPermanent && decide (entry.expiresAt < clock) then
      ({ rl with blacklist := rl.blacklist.erase clientID }, false)
    else (rl, true)

/-- `total / elapsed` per second is at most the limit, over the rationals and infinity. -/
def withinRate (totalRequests elapsed limit : Int64) : Bool :=
  if elapsed = 0 then totalRequests < 0
  else if elapsed > 0 then
    decide (totalRequests.toInt * 1000000000 ≤ limit.toInt * elapsed.toInt)
  else decide (limit.toInt * elapsed.toInt ≤ totalRequests.toInt * 1000000000)

/-- `checkGlobalRateLimit`. -/
def checkGlobalRateLimit (clock : Int) (rl : RateLimiter) : RateLimiter × Bool :=
  let timeSinceReset := Time.sub clock rl.lastResetTime
  if timeSinceReset ≥ rl.config.windowSize then ({ rl with lastResetTime := clock }, true)
  else (rl, withinRate rl.totalRequests timeSinceReset rl.config.globalRateLimit)

/-- `getOrCreateLimiter`. -/
def getOrCreateLimiter (clock : Int) (rl : RateLimiter) (clientID : String)
    (req : RateLimitRequest) : ClientLimiter :=
  (rl.limiters.lookup clientID).getD
    { clientID
      rateLimit := rl.config.defaultRateLimit
      burstLimit := rl.config.defaultBurstLimit
      windowSize := rl.config.windowSize
      tokens := rl.config.defaultBurstLimit
      lastRefill := clock
      blocked := false
      blockedUntil := 0
      lastSeen := req.timestamp }

/-- The first part of `CheckRateLimit`, with its answer if there is one already. -/
def preCheck (clock : Readings) (rl : RateLimiter) (clientID : String) (timestamp : Int) :
    RateLimiter × Option RateLimitResult :=
  let rl := { rl with totalRequests := rl.totalRequests + 1 }
  let (rl, whitelisted) :=
    if rl.config.enableWhitelist then rl.isWhitelisted clock.whitelist clientID else (rl, false)
  if whitelisted then
    (rl, some
      { allowed := true
        remainingTokens := rl.config.defaultBurstLimit
        resetTime := Time.add clock.reset rl.config.windowSize
        rateLimit := rl.config.defaultRateLimit
        windowSize := rl.config.windowSize })
  else
    let (rl, blacklisted) :=
      if rl.config.enableBlacklist then rl.isBlacklisted clock.blacklist clientID else (rl, false)
    if blacklisted then
      (rl, some
        { allowed := false
          retryAfter := 3600000000000
          violation := some ⟨timestamp, 0, "critical", "blocked_blacklisted"⟩ })
    else
      let (rl, within) :=
        if rl.config.globalRateLimit > 0 then rl.checkGlobalRateLimit clock.global else (rl, true)
      if within then (rl, none)
      else
        (rl, some
          { allowed := false
            retryAfter := 1000000000
            violation := some ⟨timestamp, 0, "high", "global_rate_limit_exceeded"⟩ })

/-- A request without a time stamp gets the time of its arrival. -/
def stamped (clock : Readings) (req : RateLimitRequest) : RateLimitRequest :=
  if req.timestamp = 0 then { req with timestamp := clock.arrival } else req

/-- The second part of `CheckRateLimit`: the bucket of the client. -/
def applyLimit (conv : Conversion) (clock : Readings) (rule : Option RateLimitRule)
    (limiter : ClientLimiter) (req : RateLimitRequest) : ClientLimiter × RateLimitResult :=
  match rule with
  | some rule => limiter.applyRuleLimit conv clock req rule
  | none => limiter.applyDefaultLimit conv clock req

/-- `CheckRateLimit`. -/
def checkRateLimit (conv : Conversion) (clock : Readings)
    (order : IterationOrder ((_ : String) × RateLimitRule)) (rl : RateLimiter)
    (req : RateLimitRequest) : RateLimiter × RateLimitResult :=
  let req := stamped clock req
  let clientID := rl.config.extractClientID req
  match rl.preCheck clock clientID req.timestamp with
  | (rl, some result) => (rl, result)
  | (rl, none) =>
    let limiter := rl.getOrCreateLimiter clock.created clientID req
    let out := applyLimit conv clock (findMatchingRule rl.rules order req) limiter req
    ({ rl with limiters := rl.limiters.insert clientID out.1 }, out.2)

/-- `AddToBlacklist`. -/
def addToBlacklist (clock : Int) (rl : RateLimiter) (clientID : String) (duration : Int64)
    (permanent : Bool) : RateLimiter :=
  { rl with
    blacklist := rl.blacklist.insert clientID
      ⟨if permanent then 0 else Time.add clock duration, permanent⟩ }

/-- `AddToWhitelist`. -/
def addToWhitelist (clock : Int) (rl : RateLimiter) (clientID : String)
    (duration : Option Int64) (permanent : Bool) : RateLimiter :=
  { rl with
    whitelist := rl.whitelist.insert clientID
      ⟨if permanent then none else duration.map (Time.add clock), permanent⟩ }

/-- `cleanup`. -/
def cleanup (clock : Int) (rl : RateLimiter) : RateLimiter :=
  { rl with
    limiters := GoMap.keep rl.limiters fun limiter =>
      !decide (Time.sub clock limiter.lastSeen > rl.config.maxIdleTime)
    blacklist := GoMap.keep rl.blacklist fun entry =>
      !(!entry.isPermanent && decide (entry.expiresAt < clock))
    whitelist := GoMap.keep rl.whitelist fun entry =>
      !(!entry.isPermanent && entry.expiresAt.any (· < clock)) }

end RateLimiter

end DistributedKV.Security
