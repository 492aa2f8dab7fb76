import DistributedKV.Lib.GoTime
import DistributedKV.Lib.Lts

/-!
# The connection pool (`pool.go`)

The operations of the pool, and a system of callers that share it. A `Connection` is a cell of a
heap, because callers hold pointers to it; the pool lists the pointers it has.

All methods run under the mutex of the pool, so an action of the system is a whole method, enabled
while the mutex is free. The exception is `GetConnection` when the pool is full:
`waitForConnection` polls the pool every 50 ms and the deferred unlock has not run, so the caller
keeps the mutex between its polls, and no action of anybody else is enabled (`step_of_waiting`).

The clock, the states of the gRPC connections and the outcome of a dial are inputs.
-/

namespace DistributedKV.Client

open Option

/-- `connectivity.State`. -/
inductive Connectivity where
  | idle
  | connecting
  | ready
  | transientFailure
  | shutdown

/-- `Connection`; of its gRPC connection it is kept whether it was closed. -/
structure Connection where
  lastUsed : Int
  inUse : Bool
  created : Int
  closed : Bool

/-- What the pool reads of `Config`. -/
structure PoolConfig where
  addresses : List String
  maxConnections : Int
  maxIdleTime : Int64
  connectionTimeout : Int64
  tlsEnabled : Bool

/-- `ConnectionPool`. A pointer to a connection is its place in `heap`. -/
structure ConnectionPool where
  config : PoolConfig
  heap : List Connection
  connections : List Nat
  closed : Bool

/-- What a method sees: the time, the states of the connections that were not closed, and the
draw of `rand.Intn`. -/
structure Look where
  now : Int
  state : Nat → Connectivity
  draw : Nat

/-- How a dial ends: an error, or the time at its end. -/
abbrev DialOutcome := Except String Int

/-- How `GetConnection` goes on. -/
inductive GetOutcome where
  | connection (conn : Nat)
  | error (text : String)
  | wait

namespace ConnectionPool

/-- `createConnection`. -/
def createConnection (p : ConnectionPool) (address : String) (dial : DialOutcome) :
    Except String Connection :=
  if p.config.tlsEnabled then .error "TLS support not implemented yet"
  else
    match dial with
    | .error err => .error ("failed to dial " ++ address ++ ": " ++ err)
    | .ok now => .ok { lastUsed := now, inUse := false, created := now, closed := false }

/-- Append a connection to the pool. -/
def append (p : ConnectionPool) (conn : Connection) : ConnectionPool :=
  { p with heap := p.heap ++ [conn], connections := p.connections ++ [p.heap.length] }

/-- The loop of `NewConnectionPool`; a dial that fails is skipped. -/
def createInitial (p : ConnectionPool) : List (String × DialOutcome) → ConnectionPool
  | [] => p
  | (address, dial) :: rest =>
    match p.createConnection address dial with
    | .error _ => createInitial p rest
    | .ok conn => createInitial (p.append conn) rest

end ConnectionPool

/-- `NewConnectionPool`: one connection to each address, as far as the limit allows. -/
def newConnectionPool (config : PoolConfig) (dials : Nat → DialOutcome) :
    Except String ConnectionPool :=
  let turns := config.addresses.take config.maxConnections.toNat
  let pool := ConnectionPool.createInitial ⟨config, [], [], false⟩
    (turns.mapIdx fun i address => (address, dials i))
  if pool.connections.length = 0 then .error "failed to create any connections" else .ok pool

namespace ConnectionPool

variable (p : ConnectionPool)

/-- `isConnectionHealthy`. -/
def isConnectionHealthy (look : Look) (conn : Nat) : Bool :=
  match p.heap[conn]? with
  | none => false
  | some c =>
    match if c.closed then .shutdown else look.state conn with
    | .ready => true
    | .idle => true
    | .connecting => Time.sub look.now c.created < p.config.connectionTimeout
    | _ => false

/-- The first connection that is not in use and healthy. -/
def findAvailable (look : Look) : Option Nat :=
  p.connections.find? fun conn =>
    (p.heap[conn]?.any fun c => !c.inUse) && p.isConnectionHealthy look conn

/-- Mark a connection as used by a caller. -/
def take (conn : Nat) (now : Int) : ConnectionPool :=
  { p with heap := p.heap.modify conn fun c => { c with inUse := true, lastUsed := now } }

/-- `closeConnection`. -/
def closeConnection (conn : Nat) : ConnectionPool :=
  { p with heap := p.heap.modify conn fun c => { c with closed := true } }

/-- `selectAddress`; `draw` is what `rand.Intn` draws. -/
def selectAddress (draw : Nat) : String :=
  p.config.addresses.getD (draw % p.config.addresses.length) ""

/-- `GetConnection` up to the call of `waitForConnection`. -/
def getConnection (look : Look) (dial : DialOutcome) :
    ConnectionPool × GetOutcome :=
  if p.closed then (p, .error "connection pool is closed")
  else
    match p.findAvailable look with
    | some conn => (p.take conn look.now, .connection conn)
    | none =>
      if p.connections.length < p.config.maxConnections then
        match p.createConnection (p.selectAddress look.draw) dial with
        | .error err => (p, .error ("failed to create new connection: " ++ err))
        | .ok conn =>
          (p.append { conn with inUse := true, lastUsed := look.now }, .connection p.heap.length)
      else (p, .wait)

/-- What `waitForConnection` does at a tick. -/
def poll (look : Look) : Option (ConnectionPool × Nat) :=
  (p.findAvailable look).map fun conn => (p.take conn look.now, conn)

/-- `PutConnection`. -/
def putConnection (conn : Nat) (now : Int) : ConnectionPool :=
  if p.closed then p.closeConnection conn
  else { p with heap := p.heap.modify conn fun c => { c with inUse := false, lastUsed := now } }

/-- `Close`. -/
def close : ConnectionPool :=
  if p.closed then p
  else { p.connections.foldl closeConnection p with closed := true, connections := [] }

/-- `cleanupIdleConnections` keeps a connection. -/
def keeps (now : Int) (conn : Nat) : Bool :=
  p.heap[conn]?.any fun c => c.inUse || Time.sub now c.lastUsed ≤ p.config.maxIdleTime

/-- `cleanupIdleConnections`. -/
def cleanupIdleConnections (now : Int) : ConnectionPool :=
  if p.closed then p
  else
    { (p.connections.filter fun conn => !p.keeps now conn).foldl closeConnection p with
      connections := p.connections.filter (p.keeps now) }

end ConnectionPool

/-! ## Callers that share a pool -/

/-- A pool, who holds its mutex between two actions, who is inside of `waitForConnection`, and
what each caller got and has not returned. -/
structure PoolSystem where
  pool : ConnectionPool
  mutex : Option Nat
  waiting : Nat → Bool
  held : Nat → List Nat

/-- A caller runs a method; or, in `waitForConnection`, its ticker fires, its context ends or it
sees the pool closed; or the cleanup goroutine runs. -/
inductive PoolAction where
  | getConnection (caller : Nat) (look : Look) (dial : DialOutcome)
  | poll (caller : Nat) (look : Look)
  | contextDone (caller : Nat)
  | closeSeen (caller : Nat)
  | putConnection (caller : Nat) (conn : Nat) (now : Int)
  | close
  | cleanup (now : Int)

namespace PoolSystem

variable (s : PoolSystem)

/-- Nobody has called the pool yet. -/
def start (pool : ConnectionPool) : PoolSystem :=
  { pool := pool, mutex := none, waiting := fun _ => false, held := fun _ => [] }

/-- A caller leaves `waitForConnection`, and the deferred unlock runs. -/
def leave (caller : Nat) : PoolSystem :=
  { s with mutex := none, waiting := Function.update s.waiting caller false }

/-- A caller has got a connection. -/
def give (caller conn : Nat) : PoolSystem :=
  { s with held := Function.update s.held caller (s.held caller ++ [conn]) }

/-- One action. `lock` waits for the mutex, so a method is enabled while it is free. -/
def step : PoolAction → Option PoolSystem
  | .getConnection caller look dial =>
    if s.mutex = none ∧ s.waiting caller = false then
      match s.pool.getConnection look dial with
      | (pool, .connection conn) => some ({ s with pool := pool }.give caller conn)
      | (pool, .error _) => some { s with pool := pool }
      | (pool, .wait) =>
        some { s with
          pool := pool
          mutex := some caller
          waiting := Function.update s.waiting caller true }
    else none
  | .poll caller look =>
    if s.waiting caller then
      match s.pool.poll look with
      | some (pool, conn) => some (({ s with pool := pool }.give caller conn).leave caller)
      | none => some s
    else none
  | .contextDone caller => if s.waiting caller then some (s.leave caller) else none
  | .closeSeen caller =>
    if s.waiting caller ∧ s.pool.closed = true then some (s.leave caller) else none
  | .putConnection caller conn now =>
    if s.mutex = none ∧ s.waiting caller = false ∧ conn ∈ s.held caller then
      some { s with
        pool := s.pool.putConnection conn now
        held := Function.update s.held caller ((s.held caller).erase conn) }
    else none
  | .close => if s.mutex = none then some { s with pool := s.pool.close } else none
  | .cleanup now =>
    if s.mutex = none then some { s with pool := s.pool.cleanupIdleConnections now } else none

/-- Whenever a caller waits and another has a connection, that one can return it and the pool
can be closed, and the returned connection, if healthy, ends the wait at the next poll. -/
def Unblocked : Prop :=
  ∀ waiter holder conn now, s.waiting waiter = true → holder ≠ waiter → conn ∈ s.held holder →
    (s.step .close).isSome = true ∧
    ∃ t, s.step (.putConnection holder conn now) = some t ∧
      ∀ look, t.pool.isConnectionHealthy look conn = true →
        ∃ u got, t.step (.poll waiter look) = some u ∧ u.waiting waiter = false ∧
          u.held waiter = t.held waiter ++ [got]

/-- `GetConnection` finds a connection, may create one, or is in nobody's way. -/
def HasRoom : PoolAction → Prop
  | .getConnection caller look _ =>
    s.mutex = none → s.waiting caller = false →
      s.pool.closed = true ∨ (s.pool.findAvailable look).isSome = true ∨
      s.pool.connections.length < s.pool.config.maxConnections ∨
      ∀ other, other ≠ caller → s.held other = []
  | _ => True

/-- The mutex is held between actions exactly by the caller that waits. -/
def Locked : Prop := ∀ caller, s.waiting caller = true ↔ s.mutex = some caller

section Steps

variable {s t : PoolSystem} {caller : Nat} {action : PoolAction}

/-- What `GetConnection` does in a system: it ends, or it goes on to wait. -/
theorem step_getConnection (look : Look) (dial : DialOutcome)
    (hfree : s.mutex = none) (hcaller : s.waiting caller = false) :
    ((s.pool.closed = true ∨ (s.pool.findAvailable look).isSome = true ∨
        s.pool.connections.length < s.pool.config.maxConnections) ∧
      ∃ t, s.step (.getConnection caller look dial) = some t ∧ t.mutex = none ∧
        t.waiting = s.waiting) ∨
    (s.pool.closed = false ∧ (s.pool.findAvailable look).isSome = false ∧
      ¬(s.pool.connections.length < s.pool.config.maxConnections) ∧
      s.step (.getConnection caller look dial) = some { s with
        mutex := some caller
        waiting := Function.update s.waiting caller true }) := by
  rw [step, if_pos ⟨hfree, hcaller⟩, ConnectionPool.getConnection]
  by_cases hclosed : s.pool.closed = true
  · left
    rw [if_pos hclosed]
    exact ⟨Or.inl hclosed, _, rfl, hfree, rfl⟩
  rw [if_neg hclosed]
  cases hfind : s.pool.findAvailable look with
  | some conn => exact Or.inl ⟨Or.inr (Or.inl rfl), _, rfl, hfree, rfl⟩
  | none =>
    by_cases hroom : (s.pool.connections.length : Int) < s.pool.config.maxConnections
    · left
      rw [if_pos hroom]
      refine ⟨Or.inr (Or.inr hroom), ?_⟩
      cases s.pool.createConnection (s.pool.selectAddress look.draw) dial with
      | error err => exact ⟨_, rfl, hfree, rfl⟩
      | ok conn => exact ⟨_, rfl, hfree, rfl⟩
    · right
      rw [if_neg hroom]
      exact ⟨by simpa using hclosed, rfl, hroom, rfl⟩

/-- **Nobody else moves.** While a caller waits, the enabled actions are its own. -/
theorem step_of_waiting (hlocked : s.Locked) (hwaits : s.waiting caller = true)
    (h : s.step action = some t) : t = s ∨ t = s.leave caller ∨
      ∃ pool conn, t = ({ s with pool := pool }.give caller conn).leave caller := by
  have hmutex : s.mutex = some caller := (hlocked caller).mp hwaits
  have hself : ∀ other, s.waiting other = true → other = caller := by
    intro other hother
    rw [hlocked other, hmutex] at hother
    exact (some.inj hother).symm
  cases action with
  | getConnection | putConnection | close | cleanup =>
    rw [step, if_neg (by simp [hmutex])] at h
    cases h
  | poll other look =>
    rw [step] at h
    split at h
    · next hother =>
      obtain rfl := hself other hother
      cases hpoll : s.pool.poll look with
      | none =>
        rw [hpoll] at h
        exact Or.inl (some.inj h).symm
      | some found =>
        rw [hpoll] at h
        exact Or.inr (Or.inr ⟨_, _, (some.inj h).symm⟩)
    · cases h
  | contextDone other =>
    rw [step] at h
    split at h
    · next hother =>
      obtain rfl := hself other hother
      exact Or.inr (Or.inl (some.inj h).symm)
    · cases h
  | closeSeen other =>
    rw [step] at h
    split at h
    · next hother =>
      obtain rfl := hself other hother.1
      exact Or.inr (Or.inl (some.inj h).symm)
    · cases h

theorem locked_start (pool : ConnectionPool) : (start pool).Locked :=
  fun _ => by simp [start]

theorem Locked.leave (hlocked : s.Locked) (hwaits : s.waiting caller = true) :
    (s.leave caller).Locked := by
  intro other
  have hmutex : s.mutex = some caller := (hlocked caller).mp hwaits
  by_cases hother : other = caller
  · subst hother
    simp [PoolSystem.leave]
  have hnot : s.waiting other ≠ true := by
    rw [Ne, hlocked other, hmutex]
    exact fun h => hother (some.inj h).symm
  simp [PoolSystem.leave, Function.update_of_ne hother, hnot]

/-- A step while the mutex is free: nobody waits afterwards, or the caller of a `GetConnection`
that found the pool full does. -/
theorem step_of_free (hfree : s.mutex = none) (hnobody : ∀ other, s.waiting other = false)
    (h : s.step action = some t) : (t.mutex = none ∧ t.waiting = s.waiting) ∨
    ∃ caller look dial, action = .getConnection caller look dial ∧ s.pool.closed = false ∧
      (s.pool.findAvailable look).isSome = false ∧
      ¬(s.pool.connections.length < s.pool.config.maxConnections) ∧
      t = { s with mutex := some caller, waiting := Function.update s.waiting caller true } := by
  cases action with
  | getConnection caller look dial =>
    rcases step_getConnection look dial hfree (hnobody caller) with
      ⟨-, t', hstep, hmutex, hwaiting⟩ | ⟨hclosed, hnone, hfull, hstep⟩
    · obtain rfl : t' = t := some.inj (hstep.symm.trans h)
      exact Or.inl ⟨hmutex, hwaiting⟩
    · exact Or.inr ⟨caller, look, dial, rfl, hclosed, hnone, hfull, some.inj (h.symm.trans hstep)⟩
  | poll | contextDone | closeSeen =>
    rw [step, if_neg (by simp [hnobody])] at h
    cases h
  | putConnection | close | cleanup =>
    rw [step] at h
    split at h <;> cases h
    all_goals exact Or.inl ⟨hfree, rfl⟩

theorem Locked.nobody (hlocked : s.Locked) (hfree : s.mutex = none) (other : Nat) :
    s.waiting other = false := by
  rw [← Bool.not_eq_true, hlocked other, hfree]
  exact nofun

theorem Locked.step (hlocked : s.Locked) (h : s.step action = some t) : t.Locked := by
  cases hmutex : s.mutex with
  | some caller =>
    have hwaits : s.waiting caller = true := (hlocked caller).mpr hmutex
    rcases step_of_waiting hlocked hwaits h with rfl | rfl | ⟨pool, conn, rfl⟩
    · exact hlocked
    · exact hlocked.leave hwaits
    · have hgiven : ({ s with pool := pool }.give caller conn).Locked := hlocked
      exact hgiven.leave hwaits
  | none =>
    have hnobody := hlocked.nobody hmutex
    rcases step_of_free hmutex hnobody h with
      ⟨hfree, hwaiting⟩ | ⟨caller, look, dial, -, -, -, -, rfl⟩
    · intro other
      rw [hwaiting, hnobody other, hfree]
      simp
    intro other
    by_cases hother : other = caller
    · subst hother
      simp
    · simp [Function.update_of_ne hother, hnobody other, Ne.symm hother]

/-- As the mutex is held during the wait, `Unblocked` only holds with nobody to unblock. -/
theorem unblocked_of_locked (hlocked : s.Locked) :
    s.Unblocked ↔ ∀ waiter holder, s.waiting waiter = true → holder ≠ waiter →
      s.held holder = [] := by
  constructor
  · intro h waiter holder hwaits hne
    cases hheld : s.held holder with
    | nil => rfl
    | cons conn rest =>
      have hmem : conn ∈ s.held holder := by
        rw [hheld]
        exact List.mem_cons_self
      have hclose := (h waiter holder conn 0 hwaits hne hmem).1
      rw [PoolSystem.step, if_neg (by rw [(hlocked waiter).mp hwaits]; simp)] at hclose
      cases hclose
  · intro h waiter holder conn now hwaits hne hmem
    rw [h waiter holder hwaits hne] at hmem
    cases hmem

theorem unblocked_step (hlocked : s.Locked) (hgood : s.Unblocked) (hroom : s.HasRoom action)
    (h : s.step action = some t) : t.Unblocked := by
  rw [unblocked_of_locked (hlocked.step h)]
  rw [unblocked_of_locked hlocked] at hgood
  intro waiter holder hwaits hne
  cases hmutex : s.mutex with
  | some caller =>
    have hcaller : s.waiting caller = true := (hlocked caller).mpr hmutex
    rcases step_of_waiting hlocked hcaller h with rfl | rfl | ⟨pool, conn, rfl⟩
    · exact hgood waiter holder hwaits hne
    -- nobody waits after the caller has left
    · have hnone := (hlocked.leave hcaller).nobody rfl waiter
      rw [hnone] at hwaits
      cases hwaits
    have hgiven : ({ s with pool := pool }.give caller conn).Locked := hlocked
    have hnone := (hgiven.leave hcaller).nobody rfl waiter
    rw [hnone] at hwaits
    cases hwaits
  | none =>
    have hnobody := hlocked.nobody hmutex
    rcases step_of_free hmutex hnobody h with
      ⟨-, hwaiting⟩ | ⟨caller, look, dial, rfl, hclosed, hnone, hfull, rfl⟩
    · rw [hwaiting, hnobody waiter] at hwaits
      cases hwaits
    obtain rfl : waiter = caller := by
      by_contra hother
      simp [Function.update_of_ne hother, hnobody waiter] at hwaits
    rcases hroom hmutex (hnobody waiter) with hc | hf | hl | hothers
    · rw [hclosed] at hc
      cases hc
    · rw [hnone] at hf
      cases hf
    · exact absurd hl hfull
    · exact hothers holder hne

theorem not_unblocked_step (hlocked : s.Locked) (hroom : ¬s.HasRoom action) :
    ∃ t, s.step action = some t ∧ ¬t.Unblocked := by
  cases action with
  | getConnection caller look dial =>
    simp only [HasRoom, Classical.not_imp, not_or, not_forall] at hroom
    obtain ⟨hfree, hcaller, hclosed, hnone, hfull, other, hother, hheld⟩ := hroom
    rcases step_getConnection look dial hfree hcaller with
      ⟨hc | hf | hl, -⟩ | ⟨-, -, -, hstep⟩
    · exact absurd hc hclosed
    · exact absurd hf hnone
    · exact absurd hl hfull
    refine ⟨_, hstep, ?_⟩
    rw [unblocked_of_locked (hlocked.step hstep)]
    exact fun h => hheld (h caller other (Function.update_self ..) hother)
  | _ => exact absurd trivial hroom

end Steps

/-- **Waiting and returning.** In every state of every run from a new pool, a waiting caller
leaves the others free to return their connections and to close the pool, and gets what is
returned, exactly if no `GetConnection` of the run finds the pool open and full with nothing
available while another caller has a connection. -/
theorem unblocked_iff (pool : ConnectionPool) (actions : List PoolAction) :
    (∀ t ∈ Lts.trace step (start pool) actions, t.Unblocked) ↔
      Lts.Along step HasRoom (start pool) actions := by
  have hstart : (start pool).Unblocked := (unblocked_of_locked (locked_start pool)).mpr nofun
  have hinv : ∀ s a t, Locked s → s.step a = some t → Locked t :=
    fun s a t hlocked h => hlocked.step h
  have hkeep : ∀ s a t, Locked s → s.Unblocked → s.HasRoom a → s.step a = some t → t.Unblocked :=
    fun s a t hlocked hgood hroom h => unblocked_step hlocked hgood hroom h
  have hbreak : ∀ s a, Locked s → s.Unblocked → ¬s.HasRoom a →
      ∃ t, s.step a = some t ∧ ¬t.Unblocked :=
    fun s a hlocked _ hroom => not_unblocked_step hlocked hroom
  exact Lts.forall_trace_iff_along hinv hkeep hbreak actions _ (locked_start pool) hstart

/-- One address, one connection. -/
def singleConfig : PoolConfig := ⟨["localhost:9090"], 1, 300000000000, 10000000000, false⟩

/-- A new pool with the one connection it may have. -/
def singlePool : ConnectionPool := ⟨singleConfig, [⟨0, false, 0, false⟩], [0], false⟩

/-- Every connection is ready. -/
def allReady (now : Int) : Look := ⟨now, fun _ => .ready, 0⟩

/-- Caller 0 takes the connection and caller 1 asks for one: while it waits, the connection
cannot be returned, nor the pool closed. -/
theorem waiting_counterexample : newConnectionPool singleConfig (fun _ => .ok 0) = .ok singlePool ∧
    ∃ s, Lts.exec step (start singlePool) [.getConnection 0 (allReady 1) (.ok 1),
        .getConnection 1 (allReady 2) (.ok 2)] = some s ∧ s.waiting 1 = true ∧ s.held 0 = [0] ∧
      (s.step (.putConnection 0 0 3)).isSome = false ∧ (s.step .close).isSome = false ∧
      ¬s.Unblocked := by
  refine ⟨rfl, _, rfl, rfl, rfl, rfl, rfl, fun h => ?_⟩
  have hclose := (h 1 0 0 0 rfl (by decide) (by decide)).1
  cases hclose

end PoolSystem

end DistributedKV.Client
