import DistributedKV.Lib.GoMap
import DistributedKV.Lib.GoTime
import DistributedKV.Lib.Lts

/-!
# Routing of reads after writes (`advanced_client.go`, `consistency_manager.go`)

A put notes the time of the write of its key, and a read with session or read-your-writes
consistency is sent to the leader of the key while that note is young; otherwise the load balancer
chooses. Deletes take no note. Every read goes to the node that its route names, whatever else
runs (`Follows`).

Leader discovery, the load balancer, the answers of the nodes and the clock are inputs, and the
clock does not go back. The version of a write is noted too and never read.
-/

namespace DistributedKV.Client

variable (config : RoutingConfig)

open List Option

/-- `ConsistencyLevel`. -/
inductive ConsistencyLevel where
  | linearizable
  | eventual
  | bounded
  | session
  | readYourWrite
  | other (level : String)

/-- The levels whose reads look at the noted writes. -/
def ConsistencyLevel.SeesWrites (level : ConsistencyLevel) : Prop :=
  level = .session ∨ level = .readYourWrite

/-- `NodeInfo`, as far as reads look at it. -/
structure ReplicaNode where
  id : String
  lastSeen : Int
deriving DecidableEq, Repr

/-- `AdvancedClientConfig`, as far as it concerns routing. -/
structure RoutingConfig where
  readYourWritesEnabled : Bool
  staleReadThreshold : Int64

/-- The threshold of `RequiresLeaderRead`. -/
def RoutingConfig.threshold : Int64 :=
  if config.staleReadThreshold = 0 then 5000000000 else config.staleReadThreshold

/-- What `leaderDiscovery` and `loadBalancer` answer for a key. A selection of one node gives at
most one. -/
structure Discovery where
  leader : Except String ReplicaNode
  selectNodes : Except String (Option ReplicaNode)
  selectRecentNodes : Except String (Option ReplicaNode)

/-- The result of `performRead`: its time stamp, and the clock when it is looked at. -/
structure ReadResult where
  timestamp : Int
  seen : Int

/-- What the nodes answer to a read. -/
abbrev Answers := ReplicaNode → Except String ReadResult

/-- `ConsistencyManager`. -/
structure ConsistencyManager where
  config : RoutingConfig
  writeTimestamps : GoMap String Int

namespace ConsistencyManager

variable (nodes : List ReplicaNode)

variable (cm : ConsistencyManager)

/-- `TrackWrite`. -/
def trackWrite (key : String) (now : Int) : ConsistencyManager :=
  { cm with writeTimestamps := cm.writeTimestamps.insert key now }

/-- `RequiresLeaderRead`. -/
def requiresLeaderRead (key : String) (now : Int) : Bool :=
  match cm.writeTimestamps.lookup key with
  | none => false
  | some writeTime => Time.sub now writeTime ≤ cm.config.threshold

/-- `selectNodesForRead`. -/
def selectNodesForRead (key : String) (consistency : ConsistencyLevel)
    (discovery : Discovery) (now : Int) : Except String (List ReplicaNode) :=
  match consistency with
  | .linearizable => discovery.leader.map fun leader => [leader]
  | .eventual => discovery.selectNodes.map Option.toList
  | .bounded => discovery.selectRecentNodes.map Option.toList
  | .session | .readYourWrite =>
    if cm.config.readYourWritesEnabled && cm.requiresLeaderRead key now then
      discovery.leader.map fun leader => [leader]
    else discovery.selectNodes.map Option.toList
  | .other level => .error ("unsupported consistency level: " ++ level)

/-- A read of the first node. The error texts are those of the caller. -/
def readFirst (answers : Answers) (noNodes failed : String) :
    Except String ReplicaNode :=
  match nodes with
  | [] => .error noNodes
  | node :: _ =>
    match answers node with
    | .ok _ => .ok node
    | .error err => .error (failed ++ err)

/-- `executeLinearizableRead`. A read is answered with the node that served it. -/
def executeLinearizableRead (answers : Answers) :
    Except String ReplicaNode :=
  readFirst nodes answers "no nodes available for linearizable read" "linearizable read failed: "

/-- The loop of `executeEventualRead`, with the last error. -/
def eventualLoop (answers : Answers) : List ReplicaNode → String → Except String ReplicaNode
  | [], lastErr => .error ("eventual read failed from all nodes: " ++ lastErr)
  | node :: nodes, _ =>
    match answers node with
    | .ok _ => .ok node
    | .error err => eventualLoop answers nodes err

/-- `executeEventualRead`. -/
def executeEventualRead (answers : Answers) :
    Except String ReplicaNode :=
  match nodes with
  | [] => .error "no nodes available for eventual read"
  | _ => eventualLoop answers nodes ""

/-- The loop of `executeBoundedRead`: the first recent node with a recent enough result. -/
def boundedLoop (staleThreshold : Int64) (now : Int) (answers : Answers) :
    List ReplicaNode → Option ReplicaNode
  | [] => none
  | node :: nodes =>
    if Time.sub now node.lastSeen ≤ staleThreshold then
      match answers node with
      | .ok result =>
        if Time.sub result.seen result.timestamp ≤ staleThreshold then some node
        else boundedLoop staleThreshold now answers nodes
      | .error _ => boundedLoop staleThreshold now answers nodes
    else boundedLoop staleThreshold now answers nodes

/-- `executeBoundedRead`. -/
def executeBoundedRead (answers : Answers)
    (now : Int) : Except String ReplicaNode :=
  match nodes with
  | [] => .error "no nodes available for bounded read"
  | _ =>
    match boundedLoop cm.config.staleReadThreshold now answers nodes with
    | some node => .ok node
    | none => executeLinearizableRead nodes answers

/-- `executeSessionRead`. -/
def executeSessionRead (answers : Answers) :
    Except String ReplicaNode :=
  readFirst nodes answers "no nodes available for session read" "session read failed: "

/-- `executeReadYourWriteRead`. -/
def executeReadYourWriteRead (key : String) (nodes : List ReplicaNode)
    (answers : Answers) (now : Int) : Except String ReplicaNode :=
  if cm.requiresLeaderRead key now then
    readFirst nodes answers "no leader available for read-your-writes" "read-your-writes failed: "
  else executeEventualRead nodes answers

/-- `ExecuteRead`. -/
def executeRead (key : String) (consistency : ConsistencyLevel)
    (nodes : List ReplicaNode) (answers : Answers) (now : Int) : Except String ReplicaNode :=
  match consistency with
  | .linearizable => executeLinearizableRead nodes answers
  | .eventual => executeEventualRead nodes answers
  | .bounded => cm.executeBoundedRead nodes answers now
  | .session => executeSessionRead nodes answers
  | .readYourWrite => cm.executeReadYourWriteRead key nodes answers now
  | .other level => .error ("unsupported consistency level: " ++ level)

section Reads

variable {cm : ConsistencyManager} {nodes : List ReplicaNode} {answers : Answers}
  {node : ReplicaNode}

theorem readFirst_eq_ok_iff {noNodes failed : String} (hone : nodes.length ≤ 1) :
    readFirst nodes answers noNodes failed = .ok node ↔
      nodes = [node] ∧ ∃ result, answers node = .ok result := by
  match nodes, hone with
  | [], _ => simp [readFirst]
  | [only], _ =>
    simp only [readFirst, List.cons.injEq, and_true]
    cases hanswer : answers only with
    | error err =>
      constructor
      · nofun
      · rintro ⟨rfl, result, hresult⟩
        exact absurd (hanswer.symm.trans hresult) nofun
    | ok result =>
      constructor
      · intro h
        cases h
        exact ⟨rfl, result, hanswer⟩
      · rintro ⟨rfl, -⟩
        rfl

theorem executeEventualRead_eq_ok_iff (hone : nodes.length ≤ 1) :
    executeEventualRead nodes answers = .ok node ↔
      nodes = [node] ∧ ∃ result, answers node = .ok result := by
  have hfirst : readFirst nodes answers "" "" = .ok node ↔ _ := readFirst_eq_ok_iff hone
  rw [← hfirst]
  match nodes, hone with
  | [], _ => simp [executeEventualRead, readFirst]
  | [only], _ =>
    simp only [executeEventualRead, eventualLoop, readFirst]
    cases answers only with
    | error err => constructor <;> nofun
    | ok result => exact Iff.rfl

end Reads

end ConsistencyManager

/-! ## Operations in flight -/

/-- The two kinds of writes. -/
inductive WriteType where
  | put
  | delete
deriving DecidableEq, Repr

/-- Where a write is. A put is noted by `ExecuteWrite` and, before it returns, by
`PutWithConsistency`. -/
inductive WritePhase where
  | pending
  | executed
  | tracked
  | returned (time : Int)
deriving DecidableEq, Repr

/-- A write of the client. -/
structure ClientWrite where
  type : WriteType
  key : String
  phase : WritePhase

/-- The choice of a node: when it is made, what the components answer then, and when puts of the
key were noted before. -/
structure Selection where
  time : Int
  discovery : Discovery
  noted : List Int

/-- Where a read is. -/
inductive ReadPhase where
  | started
  | failed (error : String)
  | selected (selection : Selection) (nodes : List ReplicaNode)
  | executed (selection : Selection) (answers : Answers) (result : Except String ReplicaNode)
  | returned (selection : Selection) (answers : Answers) (result : Except String ReplicaNode)
      (time : Int)

/-- A read, and when the writes of its key that had succeeded before it started returned. -/
structure ClientRead where
  key : String
  consistency : ConsistencyLevel
  written : List Int
  phase : ReadPhase

/-- A client with its operations, and all times at which writes of each key were noted; the
manager keeps only the last one. -/
structure RoutingClient where
  cm : ConsistencyManager
  clock : Int
  writes : List ClientWrite
  reads : List ClientRead
  noted : String → List Int

/-- The steps of the operations. A write that fails does not get further than its start. -/
inductive RoutingEvent where
  | beginWrite (type : WriteType) (key : String)
  | executeWrite (write : Nat)
  | trackPut (write : Nat)
  | returnWrite (write : Nat)
  | beginRead (key : String) (consistency : ConsistencyLevel)
  | selectNodes (read : Nat) (discovery : Discovery)
  | executeRead (read : Nat) (answers : Answers)
  | retryRead (read : Nat)
  | returnRead (read : Nat)

namespace RoutingClient

variable (c : RoutingClient)

/-- `TrackWrite` at the present time. -/
def track (key : String) : RoutingClient :=
  { c with
    cm := c.cm.trackWrite key c.clock
    noted := fun k => if k = key then c.noted k ++ [c.clock] else c.noted k }

/-- A write goes on. -/
def setWrite (write : Nat) (w : ClientWrite) (phase : WritePhase) :
    RoutingClient :=
  { c with writes := c.writes.set write { w with phase := phase } }

/-- A read goes on. -/
def setRead (read : Nat) (r : ClientRead) (phase : ReadPhase) :
    RoutingClient :=
  { c with reads := c.reads.set read { r with phase := phase } }

/-- When the successful writes of a key returned. -/
def written (key : String) : List Int :=
  c.writes.filterMap fun w =>
    match w.phase with
    | .returned time => if w.key = key then some time else none
    | _ => none

/-- The steps of a write. -/
def stepWrite (w : ClientWrite) (write : Nat) :
    RoutingEvent → Option RoutingClient
  | .executeWrite _ =>
    if w.phase = .pending then
      -- `ExecuteWrite` notes the write, `ExecuteDelete` does not
      if w.type = .put ∧ c.cm.config.readYourWritesEnabled then
        some ((c.setWrite write w .executed).track w.key)
      else some (c.setWrite write w .executed)
    else none
  | .trackPut _ =>
    if w.type = .put ∧ w.phase = .executed then
      if c.cm.config.readYourWritesEnabled then
        some ((c.setWrite write w .tracked).track w.key)
      else some (c.setWrite write w .tracked)
    else none
  | .returnWrite _ =>
    if (w.type = .put ∧ w.phase = .tracked) ∨ (w.type = .delete ∧ w.phase = .executed) then
      some (c.setWrite write w (.returned c.clock))
    else none
  | _ => none

/-- The steps of a read: `executeGetOperation`, under the retry manager. -/
def stepRead (r : ClientRead) (read : Nat) :
    RoutingEvent → Option RoutingClient
  | .selectNodes _ discovery =>
    match r.phase with
    | .started =>
      match c.cm.selectNodesForRead r.key r.consistency discovery c.clock with
      | .error err => some (c.setRead read r (.failed ("failed to select nodes: " ++ err)))
      | .ok nodes =>
        some (c.setRead read r (.selected ⟨c.clock, discovery, c.noted r.key⟩ nodes))
    | _ => none
  | .executeRead _ answers =>
    match r.phase with
    | .selected selection nodes =>
      some (c.setRead read r (.executed selection answers
        (c.cm.executeRead r.key r.consistency nodes answers c.clock)))
    | _ => none
  | .retryRead _ =>
    match r.phase with
    | .failed _ | .executed _ _ (.error _) => some (c.setRead read r .started)
    | _ => none
  | .returnRead _ =>
    match r.phase with
    | .executed selection answers result =>
      some (c.setRead read r (.returned selection answers result c.clock))
    | _ => none
  | _ => none

/-- What happens at an event, with the clock set. -/
def handle (event : RoutingEvent) : Option RoutingClient :=
  match event with
  | .beginWrite type key => some { c with writes := c.writes ++ [⟨type, key, .pending⟩] }
  | .executeWrite write | .trackPut write | .returnWrite write =>
    c.writes[write]?.bind fun w => c.stepWrite w write event
  | .beginRead key consistency =>
    some { c with reads := c.reads ++ [⟨key, consistency, c.written key, .started⟩] }
  | .selectNodes read _ | .executeRead read _ | .retryRead read | .returnRead read =>
    c.reads[read]?.bind fun r => c.stepRead r read event

/-- The clock is read. -/
def tick (now : Int) : RoutingClient := { c with clock := now }

/-- One event at some time. The clock does not go back. -/
def step (event : Int × RoutingEvent) : Option RoutingClient :=
  if event.1 < c.clock then none else (c.tick event.1).handle event.2

/-- A new client. -/
def start (config : RoutingConfig) (clock : Int) : RoutingClient :=
  { cm := ⟨config, ∅⟩, clock := clock, writes := [], reads := [], noted := fun _ => [] }

end RoutingClient

/-- Some put of the key was noted at most the threshold before the choice. -/
def Selection.Recent (selection : Selection) : Prop :=
  ∃ noted ∈ selection.noted, Time.sub selection.time noted ≤ config.threshold

instance (config : RoutingConfig) (selection : Selection) :
    Decidable (selection.Recent config) :=
  inferInstanceAs (Decidable (∃ noted ∈ selection.noted, _))

/-- The nodes a read that looks at the noted writes is sent to. -/
def Selection.route (selection : Selection) :
    Except String (List ReplicaNode) :=
  if selection.Recent config then selection.discovery.leader.map fun leader => [leader]
  else selection.discovery.selectNodes.map Option.toList

/-- At `time` the read is within the threshold of a write that had returned before it started.
-/
def ClientRead.Covered (r : ClientRead) (time : Int) : Prop :=
  ∃ written ∈ r.written, time ≤ Time.add written config.threshold

/-- The read goes where its route says. -/
def ClientRead.Follows (r : ClientRead) : Prop :=
  match r.phase with
  | .started | .failed _ => True
  | .selected selection nodes => selection.route config = .ok nodes
  | .executed selection answers result | .returned selection answers result _ =>
    ∃ nodes, selection.route config = .ok nodes ∧
      ∀ node, result = .ok node ↔ nodes = [node] ∧ ∃ answer, answers node = .ok answer

namespace RoutingClient

/-- **Read your writes.** Each read that looks at the noted writes, started after a write of its
key returned, and returned within the threshold of it was served by the leader. -/
def Routed (c : RoutingClient) : Prop :=
  ∀ r ∈ c.reads, r.consistency.SeesWrites →
    ∀ selection answers result time, r.phase = .returned selection answers result time →
      r.Covered c.cm.config time → ∀ node, result = .ok node →
        selection.discovery.leader = .ok node

/-- A read that returns within the threshold of a write chose its node within that of a noted
put, or its node is the leader anyway. -/
def Guarded (c : RoutingClient) (event : Int × RoutingEvent) : Prop :=
  match event.2 with
  | .returnRead read =>
    c.clock ≤ event.1 → ∀ r, c.reads[read]? = some r → r.consistency.SeesWrites →
      ∀ selection answers result, r.phase = .executed selection answers result →
        r.Covered c.cm.config event.1 →
          selection.Recent c.cm.config ∨
          ∀ node, selection.discovery.selectNodes = .ok (some node) →
            (∃ answer, answers node = .ok answer) → selection.discovery.leader = .ok node
  | _ => True

/-- The manager holds the last time noted for each key, and the reads follow their routes. -/
structure Consistent (c : RoutingClient) : Prop where
  enabled : c.cm.config.readYourWritesEnabled = true
  last : ∀ key, c.cm.writeTimestamps.lookup key = (c.noted key).getLast?
  sorted : ∀ key, (c.noted key).Pairwise (· ≤ ·)
  past : ∀ key, ∀ time ∈ c.noted key, time ≤ c.clock
  follows : ∀ r ∈ c.reads, r.consistency.SeesWrites → r.Follows c.cm.config

/-- The phases a read can go to before it returns. -/
inductive Advances (c : RoutingClient) (r : ClientRead) : ReadPhase → Prop where
  | restart : Advances c r .started
  | fail {error : String} : Advances c r (.failed error)
  | select {discovery : Discovery} {nodes : List ReplicaNode}
      (h : c.cm.selectNodesForRead r.key r.consistency discovery c.clock = .ok nodes) :
    Advances c r (.selected ⟨c.clock, discovery, c.noted r.key⟩ nodes)
  | execute {selection : Selection} {nodes : List ReplicaNode} {answers : Answers}
      (h : r.phase = .selected selection nodes) :
    Advances c r (.executed selection answers
      (c.cm.executeRead r.key r.consistency nodes answers c.clock))

/-- What an event does to the notes and to the reads. -/
inductive Moves (c : RoutingClient) : RoutingEvent → RoutingClient → Prop where
  | write {event : RoutingEvent} (writes : List ClientWrite) :
    Moves c event { c with writes := writes }
  | track {event : RoutingEvent} (writes : List ClientWrite) (key : String) :
    Moves c event ({ c with writes := writes }.track key)
  | read {event : RoutingEvent} (key : String) (consistency : ConsistencyLevel) :
    Moves c event { c with reads := c.reads ++ [⟨key, consistency, c.written key, .started⟩] }
  | advance {event : RoutingEvent} {read : Nat} {r : ClientRead} {phase : ReadPhase}
      (hr : c.reads[read]? = some r) (hphase : c.Advances r phase) :
    Moves c event (c.setRead read r phase)
  | finish {read : Nat} {r : ClientRead} {selection : Selection} {answers : Answers}
      {result : Except String ReplicaNode} (hr : c.reads[read]? = some r)
      (hphase : r.phase = .executed selection answers result) :
    Moves c (.returnRead read) (c.setRead read r (.returned selection answers result c.clock))

section Steps

variable {c d : RoutingClient} {r : ClientRead} {read write : Nat} {w : ClientWrite}
  {event : RoutingEvent}

theorem moves_of_stepWrite (h : c.stepWrite w write event = some d) : c.Moves event d := by
  cases event with
  | executeWrite | trackPut =>
    rw [stepWrite] at h
    split at h
    · split at h
      · exact some.inj h ▸ .track _ _
      · exact some.inj h ▸ .write _
    · cases h
  | returnWrite _ =>
    rw [stepWrite] at h
    split at h
    · exact some.inj h ▸ .write _
    · cases h
  | _ => cases h

theorem moves_of_stepRead (hr : c.reads[read]? = some r)
    (h : c.stepRead r read event = some d) (hevent : ∀ i, event = .returnRead i → i = read) :
    c.Moves event d := by
  cases event with
  | selectNodes _ discovery =>
    rw [stepRead] at h
    split at h
    · split at h
      · exact some.inj h ▸ .advance hr .fail
      · next hnodes => exact some.inj h ▸ .advance hr (.select hnodes)
    · cases h
  | executeRead _ answers =>
    rw [stepRead] at h
    split at h
    · next hphase => exact some.inj h ▸ .advance hr (.execute hphase)
    · cases h
  | retryRead _ =>
    rw [stepRead] at h
    split at h <;> cases h
    all_goals exact .advance hr .restart
  | returnRead i =>
    obtain rfl := hevent i rfl
    rw [stepRead] at h
    split at h
    · next hphase => exact some.inj h ▸ .finish hr hphase
    · cases h
  | _ => cases h

theorem moves_of_handle (h : c.handle event = some d) : c.Moves event d := by
  cases event with
  | beginWrite type key => exact some.inj h ▸ .write _
  | beginRead key consistency => exact some.inj h ▸ .read _ _
  | executeWrite write | trackPut write | returnWrite write =>
    obtain ⟨w, -, hw⟩ := bind_eq_some_iff.mp h
    exact moves_of_stepWrite hw
  | selectNodes read _ | executeRead read _ | retryRead read | returnRead read =>
    obtain ⟨r, hr, hstep⟩ := bind_eq_some_iff.mp h
    refine moves_of_stepRead hr hstep fun i hi => ?_
    cases hi <;> rfl

variable {now : Int} {config : RoutingConfig} {nodes : List ReplicaNode}

theorem step_eq_some_iff :
    c.step (now, event) = some d ↔ c.clock ≤ now ∧ (c.tick now).handle event = some d := by
  rw [step]
  split
  · next hback =>
    exact ⟨nofun, fun h => absurd hback (Int.not_lt.mpr h.1)⟩
  · next hback => exact (and_iff_right (Int.not_lt.mp hback)).symm

/-! ## The notes and the routes -/

/-- The leader is asked for exactly if some put of the key was noted at most the threshold ago.
-/
theorem Consistent.requiresLeaderRead_iff (hc : c.Consistent) {key : String} :
    c.cm.requiresLeaderRead key now = true ↔
      ∃ noted ∈ c.noted key, Time.sub now noted ≤ c.cm.config.threshold := by
  rw [ConsistencyManager.requiresLeaderRead, hc.last key]
  rcases eq_nil_or_concat (c.noted key) with hnil | ⟨init, last, hlast⟩
  · simp [hnil]
  rw [concat_eq_append] at hlast
  rw [hlast, getLast?_concat]
  constructor
  · intro h
    exact ⟨last, mem_concat_self, of_decide_eq_true h⟩
  rintro ⟨noted, hmem, hnoted⟩
  have hle : noted ≤ last := by
    have hsorted := hc.sorted key
    rw [hlast, pairwise_append] at hsorted
    rcases mem_append.mp hmem with hinit | hself
    · exact hsorted.2.2 noted hinit last (mem_singleton.mpr rfl)
    · exact (mem_singleton.mp hself).le
  exact decide_eq_true (Int64.le_trans (Time.sub_le_sub_left hle) hnoted)

theorem Consistent.selectNodesForRead_eq (hc : c.Consistent) (hlevel : r.consistency.SeesWrites)
    (discovery : Discovery) : c.cm.selectNodesForRead r.key r.consistency discovery c.clock =
      (⟨c.clock, discovery, c.noted r.key⟩ : Selection).route c.cm.config := by
  have hroute : c.cm.selectNodesForRead r.key r.consistency discovery c.clock =
      if c.cm.config.readYourWritesEnabled && c.cm.requiresLeaderRead r.key c.clock then
        discovery.leader.map fun leader => [leader]
      else discovery.selectNodes.map Option.toList := by
    rcases hlevel with h | h <;> rw [h] <;> rfl
  rw [hroute, hc.enabled, Bool.true_and, Selection.route]
  exact if_congr hc.requiresLeaderRead_iff rfl rfl

theorem route_cases {selection : Selection} (h : selection.route config = .ok nodes) :
    (∃ leader, selection.discovery.leader = .ok leader ∧ nodes = [leader]) ∨
      (¬selection.Recent config ∧ ∃ chosen, selection.discovery.selectNodes = .ok chosen ∧
        nodes = chosen.toList) := by
  rw [Selection.route] at h
  split at h
  · cases hleader : selection.discovery.leader with
    | error err =>
      rw [hleader] at h
      cases h
    | ok leader =>
      rw [hleader] at h
      exact Or.inl ⟨leader, rfl, (Except.ok.inj h).symm⟩
  next hold =>
    cases hselect : selection.discovery.selectNodes with
    | error err =>
      rw [hselect] at h
      cases h
    | ok chosen =>
      rw [hselect] at h
      exact Or.inr ⟨hold, chosen, rfl, (Except.ok.inj h).symm⟩

theorem Consistent.follows_advances (hc : c.Consistent) {phase : ReadPhase}
    (hlevel : r.consistency.SeesWrites) (hr : r.Follows c.cm.config)
    (h : c.Advances r phase) : ClientRead.Follows c.cm.config { r with phase := phase } := by
  cases h with
  | restart => trivial
  | fail => trivial
  | select hnodes => exact (hc.selectNodesForRead_eq hlevel _).symm.trans hnodes
  | @execute selection nodes answers hphase =>
    rw [ClientRead.Follows, hphase] at hr
    have hone : nodes.length ≤ 1 := by
      rcases route_cases hr with ⟨leader, -, rfl⟩ | ⟨-, chosen, -, rfl⟩
      · exact Nat.le_refl 1
      · exact Option.length_toList_le
    refine ⟨nodes, hr, fun node => ?_⟩
    rcases hlevel with h | h <;> rw [h]
    · exact ConsistencyManager.readFirst_eq_ok_iff hone
    rw [ConsistencyManager.executeRead, ConsistencyManager.executeReadYourWriteRead]
    split
    · exact ConsistencyManager.readFirst_eq_ok_iff hone
    · exact ConsistencyManager.executeEventualRead_eq_ok_iff hone

theorem forall_setRead {p : ClientRead → Prop} {phase : ReadPhase} (h : ∀ r ∈ c.reads, p r)
    (hread : p { r with phase := phase }) : ∀ r' ∈ (c.setRead read r phase).reads, p r' := by
  intro r' hmem
  rcases mem_or_eq_of_mem_set hmem with hold | rfl
  · exact h r' hold
  · exact hread

theorem Consistent.tick (hc : c.Consistent) (hnow : c.clock ≤ now) : (c.tick now).Consistent :=
  { hc with past := fun key time hmem => Int.le_trans (hc.past key time hmem) hnow }

theorem Consistent.track (hc : c.Consistent) (writes : List ClientWrite) (key : String) :
    ({ c with writes := writes }.track key).Consistent where
  enabled := hc.enabled
  last := by
    intro k
    show (c.cm.writeTimestamps.insert key c.clock).lookup k =
      (if k = key then c.noted k ++ [c.clock] else c.noted k).getLast?
    split
    · next hk => rw [hk, AList.lookup_insert, getLast?_concat]
    · next hk => rw [AList.lookup_insert_ne hk, hc.last k]
  sorted := by
    intro k
    show (if k = key then c.noted k ++ [c.clock] else c.noted k).Pairwise (· ≤ ·)
    split
    · refine pairwise_append.mpr ⟨hc.sorted k, pairwise_singleton _ _, ?_⟩
      intro time hmem last hlast
      rw [mem_singleton.mp hlast]
      exact hc.past k time hmem
    · exact hc.sorted k
  past := by
    intro k time hmem
    replace hmem : time ∈ if k = key then c.noted k ++ [c.clock] else c.noted k := hmem
    split at hmem
    · rcases mem_append.mp hmem with hold | hself
      · exact hc.past k time hold
      · exact (mem_singleton.mp hself).le
    · exact hc.past k time hmem
  follows := hc.follows

/-- Every move keeps the notes of writes in step with the writes. -/
theorem Consistent.moves (hc : c.Consistent) (h : c.Moves event d) : d.Consistent := by
  cases h with
  | write writes => exact { hc with }
  | track writes key => exact hc.track writes key
  | read key consistency =>
    exact { hc with follows :=
      forall_mem_append.mpr ⟨hc.follows, forall_mem_singleton.mpr fun _ => trivial⟩ }
  | advance hr hphase =>
    refine { hc with follows := forall_setRead hc.follows fun hlevel => ?_ }
    exact hc.follows_advances hlevel (hc.follows _ (mem_of_getElem? hr) hlevel) hphase
  | finish hr hphase =>
    refine { hc with follows := forall_setRead hc.follows fun hlevel => ?_ }
    have hfollows := hc.follows _ (mem_of_getElem? hr) hlevel
    rw [ClientRead.Follows, hphase] at hfollows
    exact hfollows

theorem Consistent.step {event : Int × RoutingEvent} (hc : c.Consistent)
    (h : c.step event = some d) : d.Consistent := by
  obtain ⟨hnow, hhandle⟩ := step_eq_some_iff.mp h
  exact (hc.tick hnow).moves (moves_of_handle hhandle)

/-! ## Which reads the leader serves -/

/-- A guarded move keeps the reads routed. -/
theorem routed_moves (hc : c.Consistent) (hrouted : c.Routed) (hnow : c.clock ≤ now)
    (hguard : c.Guarded (now, event)) (h : (c.tick now).Moves event d) : d.Routed := by
  cases h with
  | write writes => exact hrouted
  | track writes key => exact hrouted
  | read key consistency =>
    refine forall_mem_append.mpr ⟨hrouted, forall_mem_singleton.mpr ?_⟩
    intro _ _ _ _ _ hreturned
    cases hreturned
  | advance hr hphase =>
    refine forall_setRead hrouted ?_
    intro _ _ _ _ _ hreturned
    cases hphase <;> cases hreturned
  | @finish read r selection answers result hr hphase =>
    refine forall_setRead hrouted ?_
    intro hlevel _ _ _ time hreturned hcovered node hresult
    cases hreturned
    have hfollows := hc.follows r (mem_of_getElem? hr) hlevel
    rw [ClientRead.Follows, hphase] at hfollows
    obtain ⟨nodes, hroute, hserved⟩ := hfollows
    have hguard := hguard hnow r hr hlevel selection answers result hphase hcovered
    -- the route goes to the leader, or the load balancer's node is the leader
    obtain ⟨rfl, hanswer⟩ := (hserved node).mp hresult
    rcases route_cases hroute with ⟨leader, hleader, heq⟩ | ⟨hold, chosen, hselect, heq⟩
    · rwa [singleton_inj.mp heq]
    · refine hguard.resolve_left hold node ?_ hanswer
      rwa [← toList_eq_singleton_iff.mp heq.symm]

/-- A read that breaks the condition is served by the node of the load balancer. -/
theorem not_routed_step {event : Int × RoutingEvent} (hc : c.Consistent)
    (hguard : ¬c.Guarded event) : ∃ d, c.step event = some d ∧ ¬d.Routed := by
  obtain ⟨now, event⟩ := event
  cases event with
  | returnRead read =>
    simp only [Guarded, Classical.not_forall, not_or] at hguard
    obtain ⟨hnow, r, hr, hlevel, selection, answers, result, hphase, hcovered, hold, node,
      hselect, hanswer, hleader⟩ := hguard
    have hstep : c.step (now, .returnRead read) =
        some ((c.tick now).setRead read r (.returned selection answers result now)) := by
      refine step_eq_some_iff.mpr ⟨hnow, ?_⟩
      show c.reads[read]?.bind _ = _
      rw [hr, bind_some, stepRead, hphase]
      rfl
    refine ⟨_, hstep, fun hrouted => hleader ?_⟩
    have hfollows := hc.follows r (mem_of_getElem? hr) hlevel
    rw [ClientRead.Follows, hphase] at hfollows
    obtain ⟨nodes, hroute, hserved⟩ := hfollows
    have hnodes : nodes = [node] := by
      rw [Selection.route, if_neg hold, hselect] at hroute
      exact (Except.ok.inj hroute).symm
    obtain ⟨hlt, -⟩ := List.getElem?_eq_some_iff.mp hr
    exact hrouted _ (mem_set hlt _) hlevel selection answers result now rfl hcovered node
      ((hserved node).mpr ⟨hnodes, hanswer⟩)
  | _ => exact absurd trivial hguard

end Steps

/-- **Reads after writes.** With read-your-writes enabled, in every state of every run each
session or read-your-writes read that started after a write of its key returned, and returned
within the threshold of it, was served by the leader, exactly if each such read chose its node
within the threshold of a noted put of the key or got the leader from the load balancer. -/
theorem routed_iff (config : RoutingConfig) (henabled : config.readYourWritesEnabled = true)
    (clock : Int) (events : List (Int × RoutingEvent)) :
    (∀ t ∈ Lts.trace step (start config clock) events, t.Routed) ↔
      Lts.Along step Guarded (start config clock) events := by
  have hstart : (start config clock).Consistent :=
    ⟨henabled, fun _ => rfl, fun _ => List.Pairwise.nil, fun _ _ hmem => absurd hmem not_mem_nil,
      fun _ hmem => absurd hmem not_mem_nil⟩
  have hinv : ∀ c e d, Consistent c → c.step e = some d → Consistent d :=
    fun c e d hc h => hc.step h
  have hkeep : ∀ c e d, Consistent c → c.Routed → c.Guarded e → c.step e = some d → d.Routed := by
    intro c e d hc hrouted hguard h
    obtain ⟨hnow, hhandle⟩ := step_eq_some_iff.mp h
    exact routed_moves hc hrouted hnow hguard (moves_of_handle hhandle)
  have hbreak : ∀ c e, Consistent c → c.Routed → ¬c.Guarded e →
      ∃ d, c.step e = some d ∧ ¬d.Routed :=
    fun c e hc _ hguard => not_routed_step hc hguard
  exact Lts.forall_trace_iff_along hinv hkeep hbreak events _ hstart
    fun _ hmem => absurd hmem not_mem_nil

/-- A leader that is known, and a load balancer that chooses the other node. -/
def twoNodes : Discovery where
  leader := .ok ⟨"leader", 0⟩
  selectNodes := .ok (some ⟨"replica", 0⟩)
  selectRecentNodes := .ok (some ⟨"replica", 0⟩)

/-- A write of a key, and a read of it after the write has returned. -/
def writeThenRead (write : List (Int × RoutingEvent)) : List (Int × RoutingEvent) :=
  write ++
    [(5, .beginRead "k" .readYourWrite), (6, .selectNodes 0 twoNodes),
      (7, .executeRead 0 fun _ => .ok ⟨7, 7⟩)] ++ [(8, .returnRead 0)]

theorem routed_put : (⟨true, 0⟩ : RoutingConfig).readYourWritesEnabled = true ∧
    ∀ t ∈ Lts.trace step (start ⟨true, 0⟩ 0) (writeThenRead
      [(1, .beginWrite .put "k"), (2, .executeWrite 0), (3, .trackPut 0), (4, .returnWrite 0)]),
      t.Routed := by
  refine ⟨rfl, (routed_iff ⟨true, 0⟩ rfl 0 _).mpr ?_⟩
  refine Lts.along_append.mpr ⟨Lts.Along.of_forall ?_ _, ?_⟩
  · intro event hmem c
    simp only [cons_append, nil_append, mem_cons, not_mem_nil, or_false] at hmem
    rcases hmem with rfl | rfl | rfl | rfl | rfl | rfl | rfl <;> trivial
  intro t ht
  cases ht
  refine ⟨?_, fun _ _ => trivial⟩
  intro _ r hr _ selection answers result hphase _
  cases hr
  cases hphase
  exact Or.inl ⟨3, by decide +kernel, by decide +kernel⟩

/-- Nothing is noted of a delete: the read after it goes where the load balancer sends it. -/
theorem delete_counterexample : ∃ c, Lts.exec step (start ⟨true, 0⟩ 0) (writeThenRead
        [(1, .beginWrite .delete "k"), (2, .executeWrite 0), (4, .returnWrite 0)]) = some c ∧
      ¬c.Routed := by
  refine ⟨_, rfl, fun h => ?_⟩
  have hleader := h _ (mem_singleton.mpr rfl) (Or.inr rfl) _ _ _ _ rfl
    ⟨4, by decide +kernel, by decide +kernel⟩ ⟨"replica", 0⟩ rfl
  exact absurd hleader (by decide +kernel)

end RoutingClient

end DistributedKV.Client
