import DistributedKV.Lib.Lts
import DistributedKV.Security.Auth

/-!
# Revocation of sessions

The access tokens of an inactive session should be refused and its refresh tokens not be
exchanged. `VerifyToken` and `RefreshToken` do not look at the session, so this is up to whoever
makes it inactive: `Logout` blacklists only the token that it is given, and the limit on sessions
does not touch any token. The clock does not go back.
-/

namespace DistributedKV.Security.Auth

open AList AuthManager GoMap List

/-- A manager in use, the time of the last operation, and the refresh tokens redeemed so far. -/
structure AuthSystem where
  am : AuthManager
  clock : Int
  redeemed : List Nat

/-- The operations, and the limit on sessions on its own. -/
inductive AuthAction where
  | login (req : LoginRequest) (order : IterationOrder ((_ : Nat) × Session))
  | enforceMaxSessions (userID : String) (order : IterationOrder ((_ : Nat) × Session))
  | refreshToken (token : Nat)
  | verifyToken (token : TokenString)
  | logout (token : TokenString) (sessionID : Option Nat)
  | cleanup

/-- Signatures cannot be forged: what carries a valid signature has been signed. -/
def TokenString.Authentic (am : AuthManager) : TokenString → Prop
  | .signed claims => claims ∈ am.signed
  | _ => True

instance (am : AuthManager) (token : TokenString) : Decidable (token.Authentic am) := by
  cases token <;> dsimp only [TokenString.Authentic] <;> infer_instance

namespace AuthManager

/-- The session has been made inactive. -/
def Inactive (am : AuthManager) (sessionID : Nat) : Prop :=
  ∃ session, am.sessions.lookup sessionID = some session ∧ session.isActive = false

/-- The access token will not be accepted any more. -/
def Spent (am : AuthManager) (now : Int) (claims : JWTClaims) : Prop :=
  claims.tokenID ∈ am.blacklist ∨ claims.expiresAt < unix now

/-- The refresh token will not be redeemed any more. -/
def Expended (am : AuthManager) (now : Int) (rt : RefreshToken) : Prop :=
  am.config.allowRefresh = false ∨ rt.used = true ∨ rt.expiresAt < now

/-- No token of the session is alive. -/
structure Exhausted (am : AuthManager) (now : Int) (sessionID : Nat) : Prop where
  access : ∀ claims ∈ am.signed, claims.sessionID = sessionID → am.Spent now claims
  refresh : ∀ token rt, am.refreshTokens.lookup token = some rt → rt.sessionID = sessionID →
    am.Expended now rt

end AuthManager

namespace AuthSystem

/-- The clock is read. -/
def tick (s : AuthSystem) (now : Int) : AuthSystem := { s with clock := now }

/-- The manager changes. -/
def set (s : AuthSystem) (am : AuthManager) : AuthSystem := { s with am := am }

/-- What an operation makes of the system, with the clock set. -/
def perform (digest : String → String) (s : AuthSystem) : AuthAction → Option AuthSystem
  | .login req order => some (s.set (s.am.login digest req order s.clock).1)
  | .enforceMaxSessions userID order =>
    some (s.set (s.am.enforceMaxSessions userID order s.clock).1)
  | .refreshToken token =>
    match s.am.refreshToken token s.clock with
    | (am, .ok _) => some ⟨am, s.clock, s.redeemed ++ [token]⟩
    | (am, .error _) => some (s.set am)
  | .verifyToken token => if token.Authentic s.am then some s else none
  | .logout token sessionID =>
    if token.Authentic s.am then some (s.set (s.am.logout token sessionID s.clock)) else none
  | .cleanup => some (s.set (s.am.cleanup s.clock))

/-- One operation at some time. The clock does not go back. -/
def step (digest : String → String) (s : AuthSystem) (action : Int × AuthAction) :
    Option AuthSystem :=
  if action.1 < s.clock then none else (s.tick action.1).perform digest action.2

/-- A new manager. -/
def start (config : AuthConfig) (users : GoMap String User) (clock : Int) : AuthSystem :=
  ⟨newAuthManager config users, clock, []⟩

/-- **Revocation is final**: from now on no access token of an inactive session is accepted and
no refresh token of it is redeemed. And none has been redeemed twice. -/
structure Final (s : AuthSystem) : Prop where
  access : ∀ claims ∈ s.am.signed, s.am.Inactive claims.sessionID → ∀ now, s.clock ≤ now →
    ∀ accepted, s.am.verifyToken (.signed claims) now ≠ .ok accepted
  refresh : ∀ token rt, s.am.refreshTokens.lookup token = some rt → s.am.Inactive rt.sessionID →
    ∀ now, s.clock ≤ now → ∀ response, (s.am.refreshToken token now).2 ≠ .ok response
  once : s.redeemed.Nodup

/-- An operation that makes sessions inactive leaves no token of them alive. A logout takes care
of the token it is given, and of the refresh tokens. -/
def LeavesNone (digest : String → String) (s : AuthSystem) : AuthAction → Prop
  | .login req order =>
    ∀ userID user, (s.am.authenticate digest req s.clock).2 = .ok ⟨userID, user⟩ →
      ∀ sessionID ∈ s.am.overLimit userID order s.clock, s.am.Exhausted s.clock sessionID
  | .enforceMaxSessions userID order =>
    ∀ sessionID ∈ s.am.overLimit userID order s.clock, s.am.Exhausted s.clock sessionID
  | .logout token (some sessionID) =>
    token.Authentic s.am → sessionID ∈ s.am.sessions →
      ∀ claims ∈ s.am.signed, claims.sessionID = sessionID → s.am.Spent s.clock claims ∨
        ∃ given, s.am.verifyToken token s.clock = .ok given ∧ given.tokenID = claims.tokenID
  | _ => True

/-- The same of an operation at some time. -/
def Revokes (digest : String → String) (s : AuthSystem) (action : Int × AuthAction) : Prop :=
  s.clock ≤ action.1 → (s.tick action.1).LeavesNone digest action.2

/-- What holds whatever happens. -/
structure Wf (s : AuthSystem) : Prop where
  sessions : ∀ sessionID ∈ s.am.sessions, sessionID < s.am.nextSession
  signed : ∀ claims ∈ s.am.signed,
    claims.sessionID < s.am.nextSession ∧ claims.notBefore ≤ unix s.clock
  refresh : ∀ token rt, s.am.refreshTokens.lookup token = some rt →
    token < s.am.nextRefresh ∧ rt.sessionID < s.am.nextSession ∧ rt.userID ∈ s.am.users
  redeemed : ∀ token ∈ s.redeemed, token < s.am.nextRefresh ∧
    ∀ rt, s.am.refreshTokens.lookup token = some rt → rt.used = true
  once : s.redeemed.Nodup

/-- The tokens of the inactive sessions are spent. -/
structure Dead (s : AuthSystem) : Prop where
  access : ∀ claims ∈ s.am.signed, s.am.Inactive claims.sessionID → s.am.Spent s.clock claims
  refresh : ∀ token rt, s.am.refreshTokens.lookup token = some rt → s.am.Inactive rt.sessionID →
    s.am.Expended s.clock rt

end AuthSystem

/-! ## Checking tokens -/

namespace AuthManager

section Checks

variable {am : AuthManager} {now later : Int} {claims accepted : JWTClaims} {rt : RefreshToken}
  {token : Nat}

theorem unix_mono (h : now ≤ later) : unix now ≤ unix later :=
  Int.ediv_le_ediv (by decide) h

theorem Spent.mono (h : am.Spent now claims) (hle : now ≤ later) : am.Spent later claims :=
  h.imp_right fun hlt => Int.lt_of_lt_of_le hlt (unix_mono hle)

theorem Expended.mono (h : am.Expended now rt) (hle : now ≤ later) : am.Expended later rt :=
  h.imp_right (Or.imp_right fun hlt => Int.lt_of_lt_of_le hlt hle)

/-- A signed token is accepted until it is spent; its session plays no part. -/
theorem verifyToken_eq_ok_iff : am.verifyToken (.signed claims) now = .ok accepted ↔
    accepted = claims ∧ claims.notBefore ≤ unix now ∧ ¬am.Spent now claims := by
  rw [verifyToken, Spent]
  split
  · next hexpired => simp [hexpired]
  · next hexpired =>
    split
    · next hearly =>
      refine iff_of_false nofun fun h => ?_
      exact absurd h.2.1 (Int.not_le.mpr hearly)
    · next hearly =>
      split
      · next hlisted => simp [hlisted]
      · next hlisted =>
        rw [Except.ok.injEq, eq_comm]
        exact ⟨fun h => ⟨h, Int.not_lt.mp hearly, not_or.mpr ⟨hlisted, hexpired⟩⟩, fun h => h.1⟩

/-- A refresh token is redeemed exactly if it is there, is not spent, and its user exists. -/
theorem refreshToken_ok_iff : (∃ response, (am.refreshToken token now).2 = .ok response) ↔
    ∃ rt, am.refreshTokens.lookup token = some rt ∧ ¬am.Expended now rt ∧ rt.userID ∈ am.users := by
  rw [refreshToken]
  split
  · next hallow =>
    cases hlook : am.refreshTokens.lookup token with
    | none => simp
    | some rt =>
      simp only [Option.some.injEq, exists_eq_left', Expended, hallow, Bool.true_eq_false,
        false_or, not_or]
      split
      · next hexpired => simp [hexpired]
      next hexpired =>
        split
        · next hused => simp [hused]
        next hused =>
          cases huser : am.users.lookup rt.userID with
          | none =>
            have hnot : rt.userID ∉ am.users := lookup_eq_none.mp huser
            simp [hnot]
          | some user => simp [hused, hexpired, mem_of_lookup huser]
  · next hallow =>
    have hfalse : am.config.allowRefresh = false := by simpa using hallow
    simp [Expended, hfalse]

end Checks

end AuthManager

namespace AuthSystem

section Final

variable {s : AuthSystem}

/-- **Refused for ever**: tokens of inactive sessions are, exactly if they are spent by now. -/
theorem final_iff_dead (hs : s.Wf) : s.Final ↔ s.Dead := by
  constructor <;> intro h
  · constructor
    · intro claims hmem hinactive
      by_contra hlive
      exact h.access claims hmem hinactive s.clock (Int.le_refl _) claims
        (verifyToken_eq_ok_iff.mpr ⟨rfl, (hs.signed claims hmem).2, hlive⟩)
    intro token rt hlook hinactive
    by_contra hlive
    obtain ⟨response, hresponse⟩ := refreshToken_ok_iff.mpr
      ⟨rt, hlook, hlive, (hs.refresh token rt hlook).2.2⟩
    exact h.refresh token rt hlook hinactive s.clock (Int.le_refl _) response hresponse
  · refine ⟨fun claims hmem hinactive now hnow accepted haccepted => ?_,
      fun token rt hlook hinactive now hnow response hresponse => ?_, hs.once⟩
    · exact (verifyToken_eq_ok_iff.mp haccepted).2.2 ((h.access claims hmem hinactive).mono hnow)
    obtain ⟨rt', hlook', hlive, -⟩ := refreshToken_ok_iff.mp ⟨response, hresponse⟩
    obtain rfl : rt = rt' := Option.some.inj (hlook.symm.trans hlook')
    exact hlive ((h.refresh token rt hlook hinactive).mono hnow)

end Final

/-! ## Sessions that become inactive -/

section Deactivation

variable {s : AuthSystem} {am : AuthManager} {sessionID other : Nat}

open AuthManager

theorem inactive_deactivate : (am.deactivate sessionID).Inactive other ↔
    am.Inactive other ∨ (other = sessionID ∧ other ∈ am.sessions) := by
  rw [AuthManager.Inactive, deactivate, lookup_modify]
  split
  · next heq =>
    subst heq
    constructor
    · rintro ⟨session, hlook, -⟩
      obtain ⟨old, hold, -⟩ := Option.map_eq_some_iff.mp hlook
      exact Or.inr ⟨rfl, mem_of_lookup hold⟩
    intro h
    have hmem : other ∈ am.sessions := h.elim (fun ⟨_, hlook, _⟩ => mem_of_lookup hlook) And.right
    obtain ⟨old, hold⟩ := exists_lookup hmem
    exact ⟨_, Option.map_eq_some_iff.mpr ⟨old, hold, rfl⟩, rfl⟩
  · next hne => exact (or_iff_left fun h => hne h.1).symm

theorem mem_deactivate : other ∈ (am.deactivate sessionID).sessions ↔ other ∈ am.sessions :=
  mem_modify

theorem foldl_deactivate_eq (am : AuthManager) (l : List Nat) : ∃ sessions,
    l.foldl deactivate am = { am with sessions := sessions } := by
  induction l generalizing am with
  | nil => exact ⟨am.sessions, rfl⟩
  | cons sessionID l ih =>
    obtain ⟨sessions, h⟩ := ih (am.deactivate sessionID)
    exact ⟨sessions, h⟩

/-- Closing sessions closes these and no others. -/
theorem inactive_foldl_deactivate (l : List Nat) : (l.foldl deactivate am).Inactive other ↔
      am.Inactive other ∨ (other ∈ l ∧ other ∈ am.sessions) := by
  induction l generalizing am with
  | nil => simp
  | cons sessionID l ih =>
    rw [foldl_cons, ih, inactive_deactivate, mem_deactivate, mem_cons, or_assoc, or_and_right]

theorem Wf.deactivateAll (hs : s.Wf) (l : List Nat) : (s.set (l.foldl deactivate s.am)).Wf := by
  have hmem : ∀ sessionID ∈ (l.foldl deactivate s.am).sessions, sessionID < s.am.nextSession :=
    foldlRecOn (motive := fun am : AuthManager => ∀ sessionID ∈ am.sessions, sessionID < _) l _
      hs.sessions fun _ h _ _ sessionID hmem => h sessionID (mem_deactivate.mp hmem)
  obtain ⟨sessions, heq⟩ := foldl_deactivate_eq s.am l
  rw [heq] at hmem ⊢
  exact { hs with sessions := hmem }

/-- Closing sessions keeps the tokens of inactive ones spent exactly if the closed are
exhausted. -/
theorem dead_deactivateAll_iff {l : List Nat} (hl : ∀ sessionID ∈ l, sessionID ∈ s.am.sessions) :
    (s.set (l.foldl deactivate s.am)).Dead ↔
      s.Dead ∧ ∀ sessionID ∈ l, s.am.Exhausted s.clock sessionID := by
  have hinactive : ∀ other, (l.foldl deactivate s.am).Inactive other ↔
      s.am.Inactive other ∨ other ∈ l := by
    intro other
    rw [inactive_foldl_deactivate]
    exact or_congr_right (and_iff_left_of_imp (hl other))
  obtain ⟨sessions, heq⟩ := foldl_deactivate_eq s.am l
  rw [heq] at hinactive ⊢
  constructor
  · intro h
    refine ⟨⟨fun claims hmem hold => h.access claims hmem ((hinactive _).mpr (Or.inl hold)),
      fun token rt hlook hold => h.refresh token rt hlook ((hinactive _).mpr (Or.inl hold))⟩,
      fun sessionID hsession => ⟨fun claims hmem heq => ?_, fun token rt hlook heq => ?_⟩⟩
    · exact h.access claims hmem ((hinactive _).mpr (Or.inr (heq ▸ hsession)))
    · exact h.refresh token rt hlook ((hinactive _).mpr (Or.inr (heq ▸ hsession)))
  rintro ⟨hdead, hexhausted⟩
  refine ⟨fun claims hmem hnow => ?_, fun token rt hlook hnow => ?_⟩
  · rcases (hinactive _).mp hnow with hold | hclosed
    · exact hdead.access claims hmem hold
    · exact (hexhausted _ hclosed).access claims hmem rfl
  rcases (hinactive _).mp hnow with hold | hclosed
  · exact hdead.refresh token rt hlook hold
  · exact (hexhausted _ hclosed).refresh token rt hlook rfl

theorem mem_sessions_of_mem_overLimit {userID : String}
    {order : IterationOrder ((_ : Nat) × Session)} {now : Int}
    (h : sessionID ∈ am.overLimit userID order now) : sessionID ∈ am.sessions := by
  obtain ⟨entry, hentry, rfl⟩ := mem_map.mp h
  have hpicked := mem_of_mem_take (mem_filter.mp hentry).1
  have hmem := (mem_filter.mp ((order.mem_pick _).mp hpicked)).1
  exact mem_keys.mpr (mem_keys_of_mem hmem)

end Deactivation

/-! ## New tokens -/

section Issuing

variable {s : AuthSystem} {userID : String} {user : User} {sessionID : Nat}

theorem Wf.sign (hs : s.Wf) (claims : JWTClaims) (hsession : claims.sessionID < s.am.nextSession)
    (hbefore : claims.notBefore ≤ unix s.clock) : (s.set (s.am.sign claims)).Wf := by
  exact { hs with signed :=
    forall_mem_append.mpr ⟨hs.signed, forall_mem_singleton.mpr ⟨hsession, hbefore⟩⟩ }

theorem Wf.generateRefreshToken (hs : s.Wf) (huser : userID ∈ s.am.users)
    (hsession : sessionID < s.am.nextSession) :
    (s.set (s.am.generateRefreshToken userID sessionID s.clock)).Wf := by
  refine { hs with refresh := fun token rt hlook => ?_, redeemed := fun token hmem => ?_ }
  · rcases lookup_insert_eq_some.mp hlook with ⟨rfl, rfl⟩ | ⟨-, hlook⟩
    · exact ⟨Nat.lt_succ_self _, hsession, huser⟩
    · obtain ⟨hlt, hold⟩ := hs.refresh token rt hlook
      exact ⟨Nat.lt_succ_of_lt hlt, hold⟩
  obtain ⟨hlt, hused⟩ := hs.redeemed token hmem
  refine ⟨Nat.lt_succ_of_lt hlt, fun rt hlook => hused rt ?_⟩
  replace hlook : (s.am.refreshTokens.insert s.am.nextRefresh _).lookup token = some rt := hlook
  rwa [lookup_insert_ne (Nat.ne_of_lt hlt)] at hlook

/-- A token for an active session makes no difference to the inactive ones. -/
theorem dead_sign_iff (claims : JWTClaims) (hsession : ¬s.am.Inactive claims.sessionID) :
    (s.set (s.am.sign claims)).Dead ↔ s.Dead := by
  constructor
  · exact fun h => ⟨fun c hmem => h.access c (mem_append_left _ hmem), h.refresh⟩
  exact fun h => ⟨forall_mem_append.mpr ⟨h.access, forall_mem_singleton.mpr fun hinactive =>
    absurd hinactive hsession⟩, h.refresh⟩

theorem dead_generateRefreshToken_iff (hs : s.Wf) (hsession : ¬s.am.Inactive sessionID) :
    (s.set (s.am.generateRefreshToken userID sessionID s.clock)).Dead ↔ s.Dead := by
  constructor
  · refine fun h => ⟨h.access, fun token rt hlook => h.refresh token rt ?_⟩
    show (s.am.refreshTokens.insert s.am.nextRefresh _).lookup token = some rt
    rwa [lookup_insert_ne (Nat.ne_of_lt (hs.refresh token rt hlook).1)]
  refine fun h => ⟨h.access, fun token rt hlook hinactive => ?_⟩
  rcases lookup_insert_eq_some.mp hlook with ⟨rfl, rfl⟩ | ⟨-, hlook⟩
  · exact absurd hinactive hsession
  · exact h.refresh token rt hlook hinactive

/-- A session is stored under a new identifier. -/
def createSession (s : AuthSystem) (userID : String) : AuthSystem :=
  s.set { s.am with
    sessions := s.am.sessions.insert s.am.nextSession
      ⟨userID, Time.add s.clock s.am.config.sessionTimeout, true⟩
    nextSession := s.am.nextSession + 1 }

theorem Wf.createSession (hs : s.Wf) (userID : String) : (s.createSession userID).Wf where
  sessions := by
    intro sessionID hmem
    rcases (mem_insert _).mp hmem with rfl | hold
    · exact Nat.lt_succ_self _
    · exact Nat.lt_succ_of_lt (hs.sessions sessionID hold)
  signed := fun claims hmem => (hs.signed claims hmem).imp_left Nat.lt_succ_of_lt
  refresh := fun token rt hlook =>
    (hs.refresh token rt hlook).imp_right fun h => h.imp_left Nat.lt_succ_of_lt
  redeemed := hs.redeemed
  once := hs.once

theorem inactive_createSession_iff (hs : s.Wf) :
    (s.createSession userID).am.Inactive sessionID ↔ s.am.Inactive sessionID := by
  show (∃ session, (s.am.sessions.insert s.am.nextSession _).lookup sessionID = some session ∧
    session.isActive = false) ↔ _
  by_cases hsession : sessionID = s.am.nextSession
  · subst hsession
    rw [lookup_insert]
    refine iff_of_false ?_ ?_
    · rintro ⟨session, hlook, hinactive⟩
      cases hlook
      cases hinactive
    · rintro ⟨session, hlook, -⟩
      exact absurd (hs.sessions _ (mem_of_lookup hlook)) (Nat.lt_irrefl _)
  · rw [lookup_insert_ne hsession]
    rfl

theorem dead_createSession_iff (hs : s.Wf) : (s.createSession userID).Dead ↔ s.Dead := by
  constructor
  · exact fun h => ⟨fun c hmem hold => h.access c hmem ((inactive_createSession_iff hs).mpr hold),
      fun token rt hlook hold => h.refresh token rt hlook
        ((inactive_createSession_iff hs).mpr hold)⟩
  exact fun h => ⟨fun c hmem hnow => h.access c hmem ((inactive_createSession_iff hs).mp hnow),
    fun token rt hlook hnow => h.refresh token rt hlook
      ((inactive_createSession_iff hs).mp hnow)⟩

theorem not_inactive_nextSession (hs : s.Wf) (userID : String) :
    ¬(s.createSession userID).am.Inactive s.am.nextSession := by
  rw [inactive_createSession_iff hs]
  rintro ⟨session, hlook, -⟩
  exact absurd (hs.sessions _ (mem_of_lookup hlook)) (Nat.lt_irrefl _)

theorem openSession_eq : s.set (s.am.openSession userID user s.clock).1 =
    let signed := (s.createSession userID).set ((s.createSession userID).am.sign
      (s.am.accessClaims userID user s.am.nextSession s.clock))
    if s.am.config.allowRefresh then
      signed.set (signed.am.generateRefreshToken userID s.am.nextSession s.clock)
    else signed := by
  rw [openSession]
  split <;> rfl

/-- A login that gets through keeps the invariant, and the new session does not matter. -/
theorem openSession_spec (hs : s.Wf) (huser : userID ∈ s.am.users) :
    (s.set (s.am.openSession userID user s.clock).1).Wf ∧
      ((s.set (s.am.openSession userID user s.clock).1).Dead ↔ s.Dead) := by
  have hcreated := hs.createSession userID
  have hlt : s.am.nextSession < (s.createSession userID).am.nextSession := Nat.lt_succ_self _
  have hactive := not_inactive_nextSession hs userID
  let claims := s.am.accessClaims userID user s.am.nextSession s.clock
  have hsigned := hcreated.sign claims hlt (Int.le_refl _)
  have hdead := (dead_sign_iff claims hactive).trans (dead_createSession_iff hs)
  rw [openSession_eq]
  split
  · exact ⟨hsigned.generateRefreshToken huser hlt,
      (dead_generateRefreshToken_iff hsigned hactive).trans hdead⟩
  · exact ⟨hsigned, hdead⟩

end Issuing

/-! ## The operations -/

section Operations

variable {digest : String → String} {s t : AuthSystem} {userID : String} {user : User}
  {req : LoginRequest} {order : IterationOrder ((_ : Nat) × Session)}

variable {now : Int} {users : GoMap String User} {sessionID token : Nat}
  {tokens : GoMap Nat RefreshToken} {action : AuthAction}

theorem Wf.tick (hs : s.Wf) (hnow : s.clock ≤ now) : (s.tick now).Wf :=
  { hs with signed := fun claims hmem => (hs.signed claims hmem).imp_right fun h =>
      Int.le_trans h (unix_mono hnow) }

theorem Dead.tick (h : s.Dead) (hnow : s.clock ≤ now) : (s.tick now).Dead :=
  ⟨fun claims hmem hinactive => (h.access claims hmem hinactive).mono hnow,
    fun token rt hlook hinactive => (h.refresh token rt hlook hinactive).mono hnow⟩

/-- The checks of a login change the users only, and lose none. -/
theorem authenticate_fst (digest : String → String) (am : AuthManager) (req : LoginRequest)
    (now : Int) : ∃ users, (am.authenticate digest req now).1 = am.setUsers users ∧
      ∀ id, id ∈ users ↔ id ∈ am.users := by
  rw [authenticate]
  -- a wrong password and the last way out write to the account
  repeat' split
  all_goals first | exact ⟨am.users, rfl, fun _ => Iff.rfl⟩ | exact ⟨_, rfl, fun _ => mem_modify⟩

theorem mem_users_of_authenticate {am am' : AuthManager}
    (h : am.authenticate digest req now = (am', .ok ⟨userID, user⟩)) : userID ∈ am.users := by
  rw [authenticate] at h
  split at h
  · cases h
  next id found hfind =>
    have hmem : id ∈ am.users := mem_keys.mpr (mem_keys_of_mem (mem_of_find?_eq_some hfind))
    -- every way out but the last is an error
    repeat' split at h
    all_goals cases h
    exact hmem

theorem Wf.setUsers (hs : s.Wf) (h : ∀ id, id ∈ users ↔ id ∈ s.am.users) :
    (s.set (s.am.setUsers users)).Wf :=
  { hs with refresh := fun token rt hlook =>
      (hs.refresh token rt hlook).imp_right fun hrest => hrest.imp_right (h rt.userID).mpr }

theorem dead_setUsers_iff : (s.set (s.am.setUsers users)).Dead ↔ s.Dead :=
  ⟨fun h => ⟨h.access, h.refresh⟩, fun h => ⟨h.access, h.refresh⟩⟩

theorem exhausted_setUsers_iff {am : AuthManager} :
    (am.setUsers users).Exhausted now sessionID ↔ am.Exhausted now sessionID :=
  ⟨fun h => ⟨h.access, h.refresh⟩, fun h => ⟨h.access, h.refresh⟩⟩

theorem enforceMaxSessions_spec (hs : s.Wf) (userID : String)
    (order : IterationOrder ((_ : Nat) × Session)) :
    (s.set (s.am.enforceMaxSessions userID order s.clock).1).Wf ∧
      ((s.set (s.am.enforceMaxSessions userID order s.clock).1).Dead ↔
        s.Dead ∧ ∀ sessionID ∈ s.am.overLimit userID order s.clock,
          s.am.Exhausted s.clock sessionID) :=
  ⟨hs.deactivateAll _, dead_deactivateAll_iff fun _ h => mem_sessions_of_mem_overLimit h⟩

theorem startSession_spec (hs : s.Wf) (huser : userID ∈ s.am.users) (user : User)
    (order : IterationOrder ((_ : Nat) × Session)) :
    (s.set (s.am.startSession userID user order s.clock).1).Wf ∧
      ((s.set (s.am.startSession userID user order s.clock).1).Dead ↔
        s.Dead ∧ ∀ sessionID ∈ s.am.overLimit userID order s.clock,
          s.am.Exhausted s.clock sessionID) := by
  have henforce := enforceMaxSessions_spec hs userID order
  have husers : (s.am.enforceMaxSessions userID order s.clock).1.users = s.am.users := by
    obtain ⟨sessions, heq⟩ := foldl_deactivate_eq s.am (s.am.overLimit userID order s.clock)
    show ((s.am.overLimit userID order s.clock).foldl deactivate s.am).users = _
    rw [heq]
  rw [startSession]
  cases hlimit : s.am.enforceMaxSessions userID order s.clock with
  | mk am panics =>
    rw [hlimit] at henforce husers
    cases panics with
    | true => exact henforce
    | false =>
      have hopen : ((s.set am).set (am.openSession userID user s.clock).1).Wf ∧ _ :=
        openSession_spec henforce.1 (husers ▸ huser)
      exact ⟨hopen.1, hopen.2.trans henforce.2⟩

/-- **What a login does.** Tokens of inactive sessions are spent after it exactly if they were
before and the sessions that it closes are exhausted. -/
theorem login_spec (hs : s.Wf) : (s.set (s.am.login digest req order s.clock).1).Wf ∧
      ((s.set (s.am.login digest req order s.clock).1).Dead ↔
        s.Dead ∧ ∀ userID user, (s.am.authenticate digest req s.clock).2 = .ok ⟨userID, user⟩ →
          ∀ sessionID ∈ s.am.overLimit userID order s.clock, s.am.Exhausted s.clock sessionID) := by
  obtain ⟨users, hfst, husers⟩ := authenticate_fst digest s.am req s.clock
  have hwf := hs.setUsers husers
  rw [login]
  cases hauth : s.am.authenticate digest req s.clock with
  | mk am outcome =>
    rw [hauth] at hfst
    obtain rfl : am = s.am.setUsers users := hfst
    cases outcome with
    | error err =>
      refine ⟨hwf, dead_setUsers_iff.trans (and_iff_left fun _ _ h => ?_).symm⟩
      cases h
    | ok found =>
      obtain ⟨userID, user⟩ := found
      have hstart := startSession_spec hwf
        ((husers userID).mpr (mem_users_of_authenticate hauth)) user order
      refine ⟨hstart.1, hstart.2.trans (and_congr dead_setUsers_iff ?_)⟩
      constructor
      · intro h _ _ heq sessionID hsession
        cases heq
        exact exhausted_setUsers_iff.mp (h sessionID hsession)
      · intro h sessionID hsession
        exact exhausted_setUsers_iff.mpr (h userID user rfl sessionID hsession)

/-! ## Refresh tokens that go -/

section

variable (h : ∀ token rt, tokens.lookup token = some rt → s.am.refreshTokens.lookup token = some rt)
include h

theorem Wf.restrict (hs : s.Wf) :
    (s.set { s.am with refreshTokens := tokens }).Wf :=
  { hs with
    refresh := fun token rt hlook => hs.refresh token rt (h token rt hlook)
    redeemed := fun token hmem =>
      (hs.redeemed token hmem).imp_right fun hused rt hlook => hused rt (h token rt hlook) }

theorem Dead.restrict (hdead : s.Dead) :
    (s.set { s.am with refreshTokens := tokens }).Dead :=
  ⟨hdead.access, fun token rt hlook => hdead.refresh token rt (h token rt hlook)⟩

end

theorem lookup_of_lookup_keep {test : RefreshToken → Bool} {rt : RefreshToken}
    (h : (tokens.keep test).lookup token = some rt) :
    tokens.lookup token = some rt ∧ test rt = true := by
  rw [lookup_keep] at h
  exact (Option.filter_eq_some_iff.mp h)

/-- A token that is redeemed is marked as used. -/
def markUsed (s : AuthSystem) (token : Nat) (rt : RefreshToken) : AuthSystem :=
  { s with
    am := { s.am with refreshTokens := s.am.refreshTokens.insert token { rt with used := true } }
    redeemed := s.redeemed ++ [token] }

theorem Wf.markUsed (hs : s.Wf) {rt : RefreshToken}
    (hlook : s.am.refreshTokens.lookup token = some rt) (hunused : rt.used ≠ true) :
    (s.markUsed token rt).Wf where
  sessions := hs.sessions
  signed := hs.signed
  refresh := by
    intro token' rt' hlook'
    rcases lookup_insert_eq_some.mp hlook' with ⟨rfl, rfl⟩ | ⟨-, hlook'⟩
    · exact hs.refresh token' rt hlook
    · exact hs.refresh token' rt' hlook'
  redeemed := by
    intro token' hmem
    have hlt : token' < s.am.nextRefresh := by
      rcases mem_append.mp hmem with hold | hnew
      · exact (hs.redeemed token' hold).1
      · rw [mem_singleton.mp hnew]
        exact (hs.refresh token rt hlook).1
    refine ⟨hlt, fun rt' hlook' => ?_⟩
    rcases lookup_insert_eq_some.mp hlook' with ⟨rfl, rfl⟩ | ⟨heq, hlook'⟩
    · rfl
    rcases mem_append.mp hmem with hold | hnew
    · exact (hs.redeemed token' hold).2 rt' hlook'
    · exact absurd (mem_singleton.mp hnew) heq
  once := by
    refine nodup_append.mpr ⟨hs.once, nodup_singleton _, ?_⟩
    intro old hold new hnew heq
    rw [mem_singleton.mp hnew] at heq
    subst heq
    exact hunused ((hs.redeemed old hold).2 rt hlook)

theorem Dead.markUsed (h : s.Dead) (token : Nat) (rt : RefreshToken) :
    (s.markUsed token rt).Dead := by
  refine ⟨h.access, fun token' rt' hlook hinactive => ?_⟩
  rcases lookup_insert_eq_some.mp hlook with ⟨rfl, rfl⟩ | ⟨-, hlook⟩
  · exact Or.inr (Or.inl rfl)
  · exact h.refresh token' rt' hlook hinactive

/-- The ways in which a refresh can end. -/
inductive Refreshes (am : AuthManager) (token : Nat) (now : Int) :
    AuthManager × Except String LoginResponse → Prop where
  | refuse {err : String} : Refreshes am token now (am, .error err)
  | drop {err : String} :
    Refreshes am token now
      ({ am with refreshTokens := am.refreshTokens.erase token }, .error err)
  | redeem {rt : RefreshToken} {user : User} {response : LoginResponse}
      (hlook : am.refreshTokens.lookup token = some rt) (hlive : ¬am.Expended now rt)
      (huser : rt.userID ∈ am.users) :
    Refreshes am token now
      ((AuthManager.sign
        { am with refreshTokens := am.refreshTokens.insert token { rt with used := true } }
        (am.accessClaims rt.userID user rt.sessionID now)).generateRefreshToken rt.userID
          rt.sessionID now, .ok response)

theorem refreshes (am : AuthManager) (token : Nat) (now : Int) :
    Refreshes am token now (am.refreshToken token now) := by
  rw [refreshToken]
  split
  · next hallow =>
    split
    · exact .refuse
    · next rt hlook =>
      split
      · exact .drop
      · next hexpired =>
        split
        · exact .drop
        · next hused =>
          split
          · exact .refuse
          · next user huser =>
            refine .redeem hlook ?_ (mem_of_lookup huser)
            rintro (hnot | hyes | hlt)
            · rw [hallow] at hnot
              cases hnot
            · exact hused hyes
            · exact hexpired hlt
  · exact .refuse

/-- **What a refresh does.** Tokens of inactive sessions stay spent: the redeemed one is of
another. -/
theorem refreshToken_spec (hs : s.Wf) (h : s.perform digest (.refreshToken token) = some t) :
    t.Wf ∧ (s.Dead → t.Dead) := by
  have hcases := refreshes s.am token s.clock
  rw [perform] at h
  revert h hcases
  generalize s.am.refreshToken token s.clock = outcome
  intro h hcases
  cases hcases with
  | refuse =>
    cases h
    exact ⟨hs, id⟩
  | drop =>
    cases h
    exact ⟨hs.restrict fun _ _ hlook => (lookup_erase_eq_some.mp hlook).2,
      fun hdead => hdead.restrict fun _ _ hlook => (lookup_erase_eq_some.mp hlook).2⟩
  | @redeem rt user response hlook hlive huser =>
    cases h
    have hmarked := hs.markUsed hlook fun hused => hlive (Or.inr (Or.inl hused))
    obtain ⟨-, hsession, -⟩ := hs.refresh token rt hlook
    let claims := s.am.accessClaims rt.userID user rt.sessionID s.clock
    have hsigned := hmarked.sign claims hsession (Int.le_refl _)
    refine ⟨hsigned.generateRefreshToken huser hsession, fun hdead => ?_⟩
    have hactive : ¬(s.markUsed token rt).am.Inactive claims.sessionID :=
      fun hinactive => hlive (hdead.refresh token rt hlook hinactive)
    refine (dead_generateRefreshToken_iff hsigned hactive).mpr ?_
    exact (dead_sign_iff claims hactive).mpr (hdead.markUsed token rt)

theorem cleanup_spec (hs : s.Wf) :
    (s.set (s.am.cleanup s.clock)).Wf ∧ (s.Dead → (s.set (s.am.cleanup s.clock)).Dead) :=
  ⟨hs.restrict fun _ _ h => (lookup_of_lookup_keep h).1,
    fun hdead => hdead.restrict fun _ _ h => (lookup_of_lookup_keep h).1⟩

/-! ## Logouts -/

/-- The first part of a logout: the token is blacklisted. -/
def blacklisted (s : AuthSystem) (token : TokenString) : AuthSystem :=
  s.set (s.am.logout token none s.clock)

theorem blacklisted_eq (s : AuthSystem) (token : TokenString) : ∃ blacklist,
    s.blacklisted token = s.set { s.am with blacklist := blacklist } ∧
    ∀ id, id ∈ blacklist ↔ id ∈ s.am.blacklist ∨
      ∃ given, s.am.verifyToken token s.clock = .ok given ∧ given.tokenID = id := by
  rw [blacklisted, logout]
  cases hverify : s.am.verifyToken token s.clock with
  | error err => exact ⟨s.am.blacklist, rfl, fun id => by simp⟩
  | ok claims =>
    refine ⟨_, rfl, fun id => ?_⟩
    rw [mem_insert, or_comm]
    refine or_congr_right ⟨fun h => ⟨claims, rfl, h.symm⟩, ?_⟩
    rintro ⟨given, hgiven, hid⟩
    rw [Except.ok.inj hgiven, hid]

theorem Wf.blacklisted (hs : s.Wf) (token : TokenString) : (s.blacklisted token).Wf := by
  obtain ⟨blacklist, heq, -⟩ := blacklisted_eq s token
  rw [heq]
  exact { hs with }

/-- Blacklisting spends the claims of the given token only. -/
theorem spent_blacklisted_iff (token : TokenString) (claims : JWTClaims) :
    (s.blacklisted token).am.Spent s.clock claims ↔ s.am.Spent s.clock claims ∨
      ∃ given, s.am.verifyToken token s.clock = .ok given ∧ given.tokenID = claims.tokenID := by
  obtain ⟨blacklist, heq, hmem⟩ := blacklisted_eq s token
  rw [heq]
  show claims.tokenID ∈ blacklist ∨ _ ↔ _
  rw [hmem, or_right_comm]
  rfl

theorem Dead.blacklisted (h : s.Dead) (token : TokenString) : (s.blacklisted token).Dead := by
  have hspent := fun claims hmem hinactive =>
    (spent_blacklisted_iff token claims).mpr (Or.inl (h.access claims hmem hinactive))
  obtain ⟨blacklist, heq, -⟩ := blacklisted_eq s token
  rw [heq] at hspent ⊢
  exact ⟨hspent, h.refresh⟩

/-- The second part of a logout: the session is closed and its refresh tokens go. -/
def closeSession (s : AuthSystem) (sessionID : Nat) : AuthSystem :=
  s.set { s.am.deactivate sessionID with
    refreshTokens := s.am.refreshTokens.keep fun rt => rt.sessionID ≠ sessionID }

theorem logout_eq (s : AuthSystem) (token : TokenString) (sessionID : Nat) :
    s.set (s.am.logout token (some sessionID) s.clock) =
      (s.blacklisted token).closeSession sessionID := by
  rw [blacklisted, closeSession, logout, logout]
  cases s.am.verifyToken token s.clock <;> rfl

theorem Wf.closeSession (hs : s.Wf) (sessionID : Nat) : (s.closeSession sessionID).Wf := by
  have hclosed : (s.set (s.am.deactivate sessionID)).Wf := hs.deactivateAll [sessionID]
  exact hclosed.restrict fun _ _ h => (lookup_of_lookup_keep h).1

/-- **What a logout leaves behind.** The tokens of inactive sessions are spent after the session
is closed exactly if they were before and its access tokens are. -/
theorem dead_closeSession_iff (hdead : s.Dead) :
    (s.closeSession sessionID).Dead ↔ (sessionID ∈ s.am.sessions →
      ∀ claims ∈ s.am.signed, claims.sessionID = sessionID → s.am.Spent s.clock claims) := by
  have hinactive : ∀ other, (s.closeSession sessionID).am.Inactive other ↔
      s.am.Inactive other ∨ (other = sessionID ∧ other ∈ s.am.sessions) :=
    fun other => inactive_deactivate
  constructor
  · intro h hexists claims hmem hsession
    exact h.access claims hmem ((hinactive _).mpr (Or.inr ⟨hsession, hsession ▸ hexists⟩))
  intro hspent
  refine ⟨fun claims hmem hnow => ?_, fun token rt hlook hnow => ?_⟩
  · rcases (hinactive _).mp hnow with hold | ⟨hsession, hexists⟩
    · exact hdead.access claims hmem hold
    · exact hspent (hsession ▸ hexists) claims hmem hsession
  obtain ⟨hkept, hother⟩ := lookup_of_lookup_keep hlook
  rcases (hinactive _).mp hnow with hold | ⟨hsession, -⟩
  · exact hdead.refresh token rt hkept hold
  · exact absurd hsession (of_decide_eq_true hother)

/-! ## Runs -/

theorem step_eq_some_iff : s.step digest (now, action) = some t ↔
      s.clock ≤ now ∧ (s.tick now).perform digest action = some t := by
  rw [step]
  split
  · next hback => exact ⟨nofun, fun h => absurd hback (Int.not_lt.mpr h.1)⟩
  · next hback => exact (and_iff_right (Int.not_lt.mp hback)).symm

/-- Every action keeps the system well formed. -/
theorem Wf.perform (hs : s.Wf) (h : s.perform digest action = some t) : t.Wf := by
  cases action with
  | login req order => exact Option.some.inj h ▸ (login_spec hs).1
  | enforceMaxSessions userID order =>
    exact Option.some.inj h ▸ (enforceMaxSessions_spec hs userID order).1
  | refreshToken token => exact (refreshToken_spec hs h).1
  | verifyToken token =>
    rw [AuthSystem.perform] at h
    split at h
    · exact Option.some.inj h ▸ hs
    · cases h
  | logout token sessionID =>
    rw [AuthSystem.perform] at h
    split at h
    · rw [← Option.some.inj h]
      cases sessionID with
      | none => exact hs.blacklisted token
      | some sessionID =>
        rw [logout_eq]
        exact (hs.blacklisted token).closeSession sessionID
    · cases h
  | cleanup => exact Option.some.inj h ▸ (cleanup_spec hs).1

/-- **One operation** keeps the tokens of inactive sessions spent exactly if it leaves none
alive. -/
theorem dead_perform_iff (hs : s.Wf) (hdead : s.Dead) (h : s.perform digest action = some t) :
    t.Dead ↔ s.LeavesNone digest action := by
  cases action with
  | login req order =>
    rw [← Option.some.inj h]
    exact (login_spec hs).2.trans (and_iff_right hdead)
  | enforceMaxSessions userID order =>
    rw [← Option.some.inj h]
    exact (enforceMaxSessions_spec hs userID order).2.trans (and_iff_right hdead)
  | refreshToken token => exact iff_of_true ((refreshToken_spec hs h).2 hdead) trivial
  | verifyToken token =>
    rw [perform] at h
    split at h
    · exact iff_of_true (Option.some.inj h ▸ hdead) trivial
    · cases h
  | logout token sessionID =>
    rw [perform] at h
    split at h
    · next hauthentic =>
      rw [← Option.some.inj h]
      cases sessionID with
      | none => exact iff_of_true (hdead.blacklisted token) trivial
      | some sessionID =>
        rw [logout_eq, dead_closeSession_iff (hdead.blacklisted token), LeavesNone]
        obtain ⟨blacklist, heq, -⟩ := blacklisted_eq s token
        have hspent := fun claims => spent_blacklisted_iff (s := s) token claims
        rw [heq] at hspent ⊢
        constructor
        · exact fun hleft _ hexists claims hmem hsession =>
            (hspent claims).mp (hleft hexists claims hmem hsession)
        · exact fun hleft hexists claims hmem hsession =>
            (hspent claims).mpr (hleft hauthentic hexists claims hmem hsession)
    · cases h
  | cleanup =>
    rw [← Option.some.inj h]
    exact iff_of_true ((cleanup_spec hs).2 hdead) trivial

theorem exists_perform (h : ¬s.LeavesNone digest action) :
    ∃ t, s.perform digest action = some t := by
  cases action with
  | login req order => exact ⟨_, rfl⟩
  | enforceMaxSessions userID order => exact ⟨_, rfl⟩
  | refreshToken token => exact absurd trivial h
  | verifyToken token => exact absurd trivial h
  | logout token sessionID =>
    cases sessionID with
    | none => exact absurd trivial h
    | some sessionID =>
      rw [LeavesNone, Classical.not_imp] at h
      exact ⟨_, if_pos h.1⟩
  | cleanup => exact absurd trivial h

theorem wf_start (config : AuthConfig) (users : GoMap String User) (clock : Int) :
    (start config users clock).Wf where
  sessions := fun _ h => absurd h (notMem_empty _)
  signed := fun _ h => absurd h not_mem_nil
  refresh := fun _ _ h => absurd (mem_of_lookup h) (notMem_empty _)
  redeemed := fun _ h => absurd h not_mem_nil
  once := nodup_nil

end Operations

/-- **Revocation of sessions.** In every state of every run, no access token of an inactive
session is accepted and no refresh token of it is redeemed from then on, and none has been
redeemed twice, exactly if every operation that makes a session inactive leaves none of its
tokens alive. -/
theorem final_iff (digest : String → String) (config : AuthConfig) (users : GoMap String User)
    (clock : Int) (actions : List (Int × AuthAction)) :
    (∀ t ∈ Lts.trace (step digest) (start config users clock) actions, t.Final) ↔
      Lts.Along (step digest) (Revokes digest) (start config users clock) actions := by
  have hstart := wf_start config users clock
  have hinv : ∀ s a t, Wf s → s.step digest a = some t → Wf t := by
    intro s a t hs h
    obtain ⟨hnow, hperform⟩ := step_eq_some_iff.mp h
    exact (hs.tick hnow).perform hperform
  have hkeep : ∀ s a t, Wf s → s.Final → s.Revokes digest a → s.step digest a = some t →
      t.Final := by
    intro s a t hs hfinal hrevokes h
    obtain ⟨hnow, hperform⟩ := step_eq_some_iff.mp h
    have hdead := ((final_iff_dead hs).mp hfinal).tick hnow
    exact (final_iff_dead (hinv s a t hs h)).mpr
      ((dead_perform_iff (hs.tick hnow) hdead hperform).mpr (hrevokes hnow))
  have hbreak : ∀ s a, Wf s → s.Final → ¬s.Revokes digest a →
      ∃ t, s.step digest a = some t ∧ ¬t.Final := by
    intro s a hs hfinal hrevokes
    rw [Revokes, Classical.not_imp] at hrevokes
    obtain ⟨hnow, hleft⟩ := hrevokes
    obtain ⟨t, hperform⟩ := exists_perform hleft
    have hstep : s.step digest a = some t := step_eq_some_iff.mpr ⟨hnow, hperform⟩
    refine ⟨t, hstep, fun hfinal' => hleft ?_⟩
    have hdead := ((final_iff_dead hs).mp hfinal).tick hnow
    exact (dead_perform_iff (hs.tick hnow) hdead hperform).mp
      ((final_iff_dead (hinv s a t hs hstep)).mp hfinal')
  exact Lts.forall_trace_iff_along hinv hkeep hbreak actions _ hstart
    ((final_iff_dead hstart).mpr ⟨fun _ h => absurd h not_mem_nil,
      fun _ _ h => absurd (mem_of_lookup h) (notMem_empty _)⟩)

/-- A user. -/
def alice : User := ⟨"alice", "alice@kv", "secret", "", ["user"], true, false, 0, 0, false⟩

/-- One session for each user, and the default times. -/
def oneSession : AuthConfig := ⟨"kv", 0, 0, true, 0, 0, 0, 1⟩

/-- The access token of the first session. -/
def firstToken : JWTClaims :=
  ⟨"1", "alice", "alice@kv", ["user"], ["read", "write"], 0, "kv", "kvstore-api", 900, 0, 0,
    "access"⟩

/-- The second login of a user closes the session of the first, whose tokens are still of use.
-/
theorem eviction_counterexample :
    ∃ s, Lts.exec (step id) (start oneSession ((∅ : GoMap String User).insert "1" alice) 0)
        [(1, .login ⟨"alice", "secret", ""⟩ .asGiven),
          (2, .login ⟨"alice", "secret", ""⟩ .asGiven)] = some s ∧ s.am.Inactive 0 ∧
      (firstToken ∈ s.am.signed ∧ s.am.verifyToken (.signed firstToken) 3 = .ok firstToken) ∧
      (∃ response, (s.am.refreshToken 0 3).2 = .ok response ∧ response.sessionID = 0) ∧
      ¬s.Final := by
  have hinactive : ∀ am : AuthManager,
      am.sessions.lookup 0 = some ⟨"1", 86400000000001, false⟩ → am.Inactive 0 :=
    fun _ hlook => ⟨_, hlook, rfl⟩
  refine ⟨_, rfl, hinactive _ (by decide +kernel), ⟨by decide +kernel, by decide +kernel⟩,
    ⟨_, rfl, rfl⟩, fun h => ?_⟩
  exact h.access firstToken (by decide +kernel) (hinactive _ (by decide +kernel)) 3
    (by decide +kernel) firstToken (by decide +kernel)

end AuthSystem

end DistributedKV.Security.Auth
