import DistributedKV.Lib.GoMap
import DistributedKV.Lib.GoTime

/-!
# Logins, sessions and tokens (`auth.go`)

`Login` opens a session and issues an access token and a refresh token for it, `RefreshToken`
exchanges a refresh token for new tokens of the same session, `VerifyToken` checks an access token,
and `Logout` blacklists the token it is given, closes the session and drops its refresh tokens. A
login beyond the limit of a user closes older sessions of theirs.

The stores are maps, and the digest of a password is a parameter. Random identifiers are numbered
in the order in which they are drawn, so none is drawn twice. `signed` collects what the private
key has signed: a token with a valid signature is one of those.
-/

namespace DistributedKV.Security.Auth

/-- `AuthConfig`, as far as it concerns sessions and tokens. -/
structure AuthConfig where
  issuer : String
  tokenTTL : Int64
  refreshTokenTTL : Int64
  allowRefresh : Bool
  maxLoginAttempts : Int
  lockoutDuration : Int64
  sessionTimeout : Int64
  maxSessions : Int

/-- The default values that `NewAuthManager` sets. -/
def AuthConfig.withDefaults (config : AuthConfig) : AuthConfig :=
  { config with
    tokenTTL := if config.tokenTTL = 0 then 900000000000 else config.tokenTTL
    refreshTokenTTL :=
      if config.refreshTokenTTL = 0 then 604800000000000 else config.refreshTokenTTL
    maxLoginAttempts := if config.maxLoginAttempts = 0 then 5 else config.maxLoginAttempts
    lockoutDuration :=
      if config.lockoutDuration = 0 then 1800000000000 else config.lockoutDuration
    sessionTimeout := if config.sessionTimeout = 0 then 86400000000000 else config.sessionTimeout
    maxSessions := if config.maxSessions = 0 then 5 else config.maxSessions }

/-- `User`. The identifier is the key in the store. -/
structure User where
  username : String
  email : String
  passwordHash : String
  salt : String
  roles : List String
  isActive : Bool
  isLocked : Bool
  lockedUntil : Int
  failedAttempts : Int
  mfaEnabled : Bool

/-- `Session`. The identifier is the key in the store. -/
structure Session where
  userID : String
  expiresAt : Int
  isActive : Bool
deriving DecidableEq, Repr

/-- `RefreshToken`. The token itself is the key in the map. -/
structure RefreshToken where
  userID : String
  sessionID : Nat
  expiresAt : Int
  used : Bool

/-- `JWTClaims`. -/
structure JWTClaims where
  userID : String
  username : String
  email : String
  roles : List String
  permissions : List String
  sessionID : Nat
  issuer : String
  audience : String
  expiresAt : Int
  issuedAt : Int
  notBefore : Int
  tokenType : String
deriving DecidableEq, Repr

/-- What `generateTokenID` hashes. -/
structure TokenID where
  userID : String
  sessionID : Nat
  issuedAt : Int
deriving DecidableEq, Repr

/-- `generateTokenID`. -/
def JWTClaims.tokenID (claims : JWTClaims) : TokenID :=
  ⟨claims.userID, claims.sessionID, claims.issuedAt⟩

/-- An access token: it has not three parts, its signature is wrong, or the private key signed
it. -/
inductive TokenString where
  | malformed
  | unsigned (err : String)
  | signed (claims : JWTClaims)

/-- `LoginRequest`. -/
structure LoginRequest where
  username : String
  password : String
  mfaCode : String

/-- `LoginResponse`. -/
structure LoginResponse where
  accessToken : JWTClaims
  refreshToken : Option Nat
  sessionID : Nat

/-- Why a login fails. -/
inductive LoginError where
  | invalidCredentials
  | inactive
  | locked (lockedUntil : Int)
  | invalidMFA
  | mfaRequired

/-- The text of the error, with times printed by `format`. -/
def LoginError.text (format : Int → String) : LoginError → String
  | .invalidCredentials => "invalid credentials"
  | .inactive => "account is inactive"
  | .locked lockedUntil => "account is locked until " ++ format lockedUntil
  | .invalidMFA => "invalid MFA code"
  | .mfaRequired => "MFA code required"

/-- How a login ends. -/
inductive LoginResult where
  | ok (response : LoginResponse)
  | error (err : LoginError)
  | panic

/-- `t.Unix()`. -/
def unix (t : Int) : Int := t / 1000000000

/-- `verifyMFA`. -/
def verifyMFA (code : String) : Bool := code = "123456"

/-- The permissions of one role. -/
def rolePermissions : String → List String
  | "admin" => ["read", "write", "delete", "manage_users", "manage_system"]
  | "user" => ["read", "write"]
  | "reader" => ["read"]
  | _ => []

/-- `getUserPermissions`. -/
def getUserPermissions (user : User) : List String := user.roles.flatMap rolePermissions

/-- `AuthManager`, with its stores. -/
structure AuthManager where
  config : AuthConfig
  users : GoMap String User
  sessions : GoMap Nat Session
  blacklist : GoMap TokenID Int
  refreshTokens : GoMap Nat RefreshToken
  signed : List JWTClaims
  nextSession : Nat
  nextRefresh : Nat

/-- `NewAuthManager`. -/
def newAuthManager (config : AuthConfig) (users : GoMap String User) : AuthManager :=
  ⟨config.withDefaults, users, ∅, ∅, ∅, [], 0, 0⟩

namespace AuthManager

variable (am : AuthManager)

/-! ## Tokens -/

/-- `generateToken` of an access token. -/
def accessClaims (userID : String) (user : User) (sessionID : Nat)
    (now : Int) : JWTClaims where
  userID := userID
  username := user.username
  email := user.email
  roles := user.roles
  permissions := getUserPermissions user
  sessionID := sessionID
  issuer := am.config.issuer
  audience := "kvstore-api"
  expiresAt := unix (Time.add now am.config.tokenTTL)
  issuedAt := unix now
  notBefore := unix now
  tokenType := "access"

/-- A token is signed. -/
def sign (claims : JWTClaims) : AuthManager :=
  { am with signed := am.signed ++ [claims] }

/-- `generateRefreshToken`; the token is `nextRefresh`. -/
def generateRefreshToken (userID : String) (sessionID : Nat) (now : Int) :
    AuthManager :=
  { am with
    refreshTokens := am.refreshTokens.insert am.nextRefresh
      ⟨userID, sessionID, Time.add now am.config.refreshTokenTTL, false⟩
    nextRefresh := am.nextRefresh + 1 }

/-- `VerifyToken`. -/
def verifyToken (token : TokenString) (now : Int) : Except String JWTClaims :=
  match token with
  | .malformed => .error "invalid token format"
  | .unsigned err => .error ("invalid signature: " ++ err)
  | .signed claims =>
    if claims.expiresAt < unix now then .error "token expired"
    else if unix now < claims.notBefore then .error "token not yet valid"
    else if claims.tokenID ∈ am.blacklist then .error "token is blacklisted"
    else .ok claims

/-- `RefreshToken`. -/
def refreshToken (token : Nat) (now : Int) :
    AuthManager × Except String LoginResponse :=
  if am.config.allowRefresh then
    match am.refreshTokens.lookup token with
    | none => (am, .error "invalid refresh token")
    | some rt =>
      if rt.expiresAt < now then
        ({ am with refreshTokens := am.refreshTokens.erase token }, .error "refresh token expired")
      else if rt.used then
        ({ am with refreshTokens := am.refreshTokens.erase token },
          .error "refresh token already used")
      else
        match am.users.lookup rt.userID with
        | none => (am, .error "user not found")
        | some user =>
          let claims := am.accessClaims rt.userID user rt.sessionID now
          let used :=
            { am with refreshTokens := am.refreshTokens.insert token { rt with used := true } }
          ((used.sign claims).generateRefreshToken rt.userID rt.sessionID now,
            .ok ⟨claims, some am.nextRefresh, rt.sessionID⟩)
  else (am, .error "token refresh not allowed")

/-! ## Sessions -/

/-- A session is made inactive and stored again. -/
def deactivate (sessionID : Nat) : AuthManager :=
  { am with sessions := am.sessions.modify sessionID fun session =>
      { session with isActive := false } }

/-- `GetUserSessions`, in the order in which the store gives them. -/
def getUserSessions (userID : String)
    (order : IterationOrder ((_ : Nat) × Session)) : List ((_ : Nat) × Session) :=
  order.pick (am.sessions.entries.filter fun e => e.2.userID = userID)

/-- How many sessions from the front of the list `enforceMaxSessions` goes through. -/
def surplus (sessions : List ((_ : Nat) × Session)) (now : Int) : Int :=
  let activeSessions := sessions.countP fun e => e.2.isActive && decide (now < e.2.expiresAt)
  if am.config.maxSessions ≤ activeSessions then sessions.length - am.config.maxSessions + 1
  else 0

/-- The sessions that `enforceMaxSessions` closes. -/
def overLimit (userID : String)
    (order : IterationOrder ((_ : Nat) × Session)) (now : Int) : List Nat :=
  let sessions := am.getUserSessions userID order
  ((sessions.take (am.surplus sessions now).toNat).filter fun e => e.2.isActive).map Sigma.fst

/-- `enforceMaxSessions`. The loop runs past the end of the list if the limit is negative. -/
def enforceMaxSessions (userID : String)
    (order : IterationOrder ((_ : Nat) × Session)) (now : Int) : AuthManager × Bool :=
  let sessions := am.getUserSessions userID order
  ((am.overLimit userID order now).foldl deactivate am,
    decide ((sessions.length : Int) < am.surplus sessions now))

/-- `Logout`. An empty session identifier is `none`. -/
def logout (token : TokenString) (sessionID : Option Nat) (now : Int) :
    AuthManager :=
  let blacklisted :=
    match am.verifyToken token now with
    | .ok claims =>
      { am with blacklist := am.blacklist.insert claims.tokenID (claims.expiresAt * 1000000000) }
    | .error _ => am
  match sessionID with
  | none => blacklisted
  | some sessionID =>
    { blacklisted.deactivate sessionID with
      refreshTokens := am.refreshTokens.keep fun rt => rt.sessionID ≠ sessionID }

/-- `cleanup`, of the refresh tokens. -/
def cleanup (now : Int) : AuthManager :=
  { am with refreshTokens :=
      am.refreshTokens.keep fun rt => ¬(rt.expiresAt < now ∨ rt.used = true) }

/-! ## Logins -/

/-- The user store changes. -/
def setUsers (users : GoMap String User) : AuthManager :=
  { am with users := users }

/-- A wrong password is counted, and locks the account when there were too many. -/
def failedAttempt (userID : String) (user : User) (now : Int) : AuthManager :=
  am.setUsers (am.users.modify userID fun u =>
    if user.failedAttempts + 1 ≥ am.config.maxLoginAttempts then
      { u with
        failedAttempts := u.failedAttempts + 1
        isLocked := true
        lockedUntil := Time.add now am.config.lockoutDuration }
    else { u with failedAttempts := u.failedAttempts + 1 })

/-- The first part of `Login`: the checks on the user. -/
def authenticate (digest : String → String) (am : AuthManager) (req : LoginRequest) (now : Int) :
    AuthManager × Except LoginError ((_ : String) × User) :=
  match am.users.entries.find? fun e => e.2.username = req.username with
  | none => (am, .error .invalidCredentials)
  | some ⟨userID, user⟩ =>
    if user.isActive = false then (am, .error .inactive)
    else if user.isLocked ∧ now < user.lockedUntil then (am, .error (.locked user.lockedUntil))
    else if digest (req.password ++ user.salt) ≠ user.passwordHash then
      (am.failedAttempt userID user now, .error .invalidCredentials)
    else if user.mfaEnabled ∧ req.mfaCode ≠ "" ∧ verifyMFA req.mfaCode = false then
      (am, .error .invalidMFA)
    else if user.mfaEnabled ∧ req.mfaCode = "" then (am, .error .mfaRequired)
    else
      (am.setUsers (am.users.modify userID fun u =>
        { u with failedAttempts := 0, isLocked := false }), .ok ⟨userID, user⟩)

/-- The last part of `Login`: the session is stored and the tokens are issued. -/
def openSession (userID : String) (user : User) (now : Int) :
    AuthManager × LoginResponse :=
  let sessionID := am.nextSession
  let claims := am.accessClaims userID user sessionID now
  let created :=
    { am with
      sessions := am.sessions.insert sessionID
        ⟨userID, Time.add now am.config.sessionTimeout, true⟩
      nextSession := sessionID + 1 }
  if am.config.allowRefresh then
    ((created.sign claims).generateRefreshToken userID sessionID now,
      ⟨claims, some am.nextRefresh, sessionID⟩)
  else (created.sign claims, ⟨claims, none, sessionID⟩)

/-- The second part of `Login`: the limit on sessions, and the new session. -/
def startSession (userID : String) (user : User)
    (order : IterationOrder ((_ : Nat) × Session)) (now : Int) : AuthManager × LoginResult :=
  match am.enforceMaxSessions userID order now with
  | (am, true) => (am, .panic)
  | (am, false) => ((am.openSession userID user now).1, .ok (am.openSession userID user now).2)

/-- `Login`. -/
def login (digest : String → String) (am : AuthManager) (req : LoginRequest)
    (order : IterationOrder ((_ : Nat) × Session)) (now : Int) : AuthManager × LoginResult :=
  match am.authenticate digest req now with
  | (am, .error err) => (am, .error err)
  | (am, .ok ⟨userID, user⟩) => am.startSession userID user order now

end AuthManager

end DistributedKV.Security.Auth
