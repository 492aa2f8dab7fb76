import DistributedKV.Lib.Lts
import DistributedKV.Consensus.NodeSpec

/-!
# What a leader notes about its peers

During one leadership, with fixed membership, a leader keeps for each peer the index up to which
the logs are known to agree (`matchIndex`) and the next one to send (`nextIndex`). Responses come
back in any order, late, and more than once, and are taken without a look at what is already
known: a late success moves `matchIndex` back, and a late failure moves `nextIndex` down to it.
-/

namespace DistributedKV.Consensus

open Option RaftNode

/-- A request and the peer it went to. -/
structure SentRequest where
  peer : String
  request : AppendRequest
deriving DecidableEq

/-- One leadership: the node, all requests sent, and the match indexes before the last step. -/
structure Leadership where
  node : RaftNode
  sent : List SentRequest
  before : IndexMap

/-- What happens during a leadership. The content of a response is up to the peer. -/
inductive LeaderAction where
  | appendEntry (disk : Disk) (entryType : String) (data : List UInt8) (now : Int)
  | replicate (peer : String)
  | respond (peer : String) (req : AppendRequest) (resp : AppendResponse)

namespace Leadership

/-- `becomeLeader`. -/
def start (rn : RaftNode) : Leadership := ⟨rn.becomeLeader, [], rn.becomeLeader.matchIndex⟩

/-- One action. Requests stay in `sent`: each can be answered at any time, any number of times.
-/
def step (s : Leadership) : LeaderAction → Option Leadership
  | .appendEntry disk entryType data now =>
    some ⟨(s.node.appendEntry disk entryType data now).1, s.sent, s.node.matchIndex⟩
  | .replicate peer =>
    if peer ∈ s.node.peers then
      (s.node.replicateToFollower peer).map fun req =>
        ⟨s.node, ⟨peer, req⟩ :: s.sent, s.node.matchIndex⟩
    else none
  | .respond peer req resp =>
    if ⟨peer, req⟩ ∈ s.sent then
      (s.node.handleAppendEntriesResponse .healthy peer req resp).map fun rn =>
        ⟨rn, s.sent, s.node.matchIndex⟩
    else none

/-- The bookkeeping is consistent. -/
structure Consistent (s : Leadership) : Prop where
  matchBounds : ∀ p ∈ s.node.peers,
    0 ≤ s.node.matchIndex.get p ∧ s.node.matchIndex.get p ≤ s.node.getLastLogIndex
  nextBounds : ∀ p ∈ s.node.peers,
    1 ≤ s.node.nextIndex.get p ∧ s.node.nextIndex.get p ≤ s.node.getLastLogIndex + 1
  below : ∀ p ∈ s.node.peers, s.node.matchIndex.get p < s.node.nextIndex.get p
  grows : ∀ p ∈ s.node.peers, s.before.get p ≤ s.node.matchIndex.get p

/-- A success is not behind the match index, and a failure leaves the next index above it. -/
def InOrder (s : Leadership) : LeaderAction → Prop
  | .respond peer req resp =>
    ⟨peer, req⟩ ∈ s.sent → resp.term = s.node.currentTerm →
      (resp.success = true → req.entries ≠ [] →
        s.node.matchIndex.get peer ≤ req.prevLogIndex + req.entries.length) ∧
      (resp.success = false → 1 < s.node.nextIndex.get peer →
        s.node.matchIndex.get peer + 1 < s.node.nextIndex.get peer)
  | _ => True

instance (s : Leadership) : ∀ a, Decidable (s.InOrder a) := fun a => by
  cases a <;> dsimp only [InOrder] <;> infer_instance

/-! ## What holds in any order -/

/-- What every run keeps, whatever the order of the responses. -/
structure Sound (s : Leadership) : Prop where
  leader : s.node.state = .leader
  numbered : Numbered s.node.log
  commit : 0 ≤ s.node.commitIndex
  requests : ∀ r ∈ s.sent, r.peer ∈ s.node.peers ∧
    (r.request.entries ≠ [] → 0 ≤ r.request.prevLogIndex ∧
      r.request.prevLogIndex + r.request.entries.length ≤ s.node.log.length)
  matched : ∀ p ∈ s.node.peers,
    0 ≤ s.node.matchIndex.get p ∧ s.node.matchIndex.get p ≤ s.node.log.length
  next : ∀ p ∈ s.node.peers,
    1 ≤ s.node.nextIndex.get p ∧ s.node.nextIndex.get p ≤ (s.node.log.length : Int) + 1

variable {s t : Leadership} {rn : RaftNode} {peer : String} {req : AppendRequest} {a : LeaderAction}

theorem Sound.lastLogIndex (h : s.Sound) :
    s.node.getLastLogIndex = s.node.log.length := h.numbered.lastIndexOf_eq

theorem start_get {p : String} (hp : p ∈ (start rn).node.peers) :
    (start rn).node.matchIndex.get p = 0 ∧
      (start rn).node.nextIndex.get p = rn.getLastLogIndex + 1 :=
  ⟨IndexMap.get_foldl_insert hp _ _, IndexMap.get_foldl_insert hp _ _⟩

theorem sound_start (hnum : Numbered rn.log) (hcommit : 0 ≤ rn.commitIndex) : (start rn).Sound where
  leader := rfl
  numbered := hnum
  commit := hcommit
  requests _ hr := absurd hr List.not_mem_nil
  matched p hp := by
    rw [(start_get hp).1]
    exact ⟨le_refl _, Int.natCast_nonneg _⟩
  next p hp := by
    have hlast : rn.getLastLogIndex = rn.log.length := hnum.lastIndexOf_eq
    rw [(start_get hp).2, hlast]
    exact ⟨by omega, le_refl _⟩

theorem consistent_start (hnum : Numbered rn.log) : (start rn).Consistent := by
  have hlast : rn.getLastLogIndex = rn.log.length := hnum.lastIndexOf_eq
  have hlast' : (start rn).node.getLastLogIndex = rn.log.length := hlast
  refine ⟨?_, ?_, ?_, fun p _ => le_refl _⟩
  · intro p hp
    rw [(start_get hp).1, hlast']
    omega
  · intro p hp
    rw [(start_get hp).2, hlast, hlast']
    omega
  intro p hp
  rw [(start_get hp).1, (start_get hp).2, hlast]
  omega

/-! ## What a step does -/

theorem Sound.appendEntry (h : s.Sound) (disk : Disk) (entryType : String) (data : List UInt8)
    (now : Int) :
    Sound ⟨(s.node.appendEntry disk entryType data now).1, s.sent, s.node.matchIndex⟩ := by
  rw [appendEntry_leader h.leader]
  have hlen : (s.node.log ++ [s.node.newEntry entryType data now]).length =
      s.node.log.length + 1 := by simp
  refine ⟨h.leader, ?_, h.commit, ?_, ?_, ?_⟩
  · refine h.numbered.concat ?_
    show s.node.getLastLogIndex + 1 = _
    rw [h.lastLogIndex]
  · intro r hr
    refine ⟨(h.requests r hr).1, fun hne => ?_⟩
    have := (h.requests r hr).2 hne
    rw [hlen]
    omega
  · intro p hp
    have := h.matched p hp
    dsimp only
    omega
  · intro p hp
    have := h.next p hp
    dsimp only
    omega

/-- The request of a leader whose next index is in range ends where its log ends. -/
theorem Sound.replicate (h : s.Sound) (hpeer : peer ∈ s.node.peers)
    (hreq : s.node.replicateToFollower peer = some req) :
    Sound ⟨s.node, ⟨peer, req⟩ :: s.sent, s.node.matchIndex⟩ := by
  refine ⟨h.leader, h.numbered, h.commit, ?_, h.matched, h.next⟩
  intro r hr
  rcases List.mem_cons.mp hr with rfl | hr
  · refine ⟨hpeer, fun _ => ?_⟩
    have hnext := h.next peer hpeer
    obtain ⟨p, hp⟩ : ∃ p : Nat, s.node.nextIndex.get peer = (p : Int) + 1 :=
      ⟨(s.node.nextIndex.get peer - 1).toNat, by omega⟩
    have hle : p ≤ s.node.log.length := by omega
    have hstart : s.node.startIndex peer = (p : Int) + 1 := by
      rw [RaftNode.startIndex, if_neg (by omega), hp]
    rw [RaftNode.replicateToFollower, if_neg (by simp [h.leader]), hstart,
      buildAppendRequest_eq _ hle] at hreq
    rw [← some.inj hreq]
    dsimp only
    rw [List.length_drop]
    omega
  · exact h.requests r hr

/-- A success of a request that was sent moves both numbers to its end. -/
theorem Sound.success (h : s.Sound) (hsent : ⟨peer, req⟩ ∈ s.sent) (hne : req.entries ≠ [])
    {commit : Int} (hcommit : 0 ≤ commit) :
    Sound ⟨{ s.node.noteMatch peer (req.prevLogIndex + req.entries.length) with
      commitIndex := commit }, s.sent, s.node.matchIndex⟩ := by
  obtain ⟨hlow, hend⟩ : 0 ≤ req.prevLogIndex ∧
      req.prevLogIndex + req.entries.length ≤ s.node.log.length := (h.requests _ hsent).2 hne
  refine ⟨h.leader, h.numbered, hcommit, h.requests, ?_, ?_⟩ <;> intro p hp
  · rw [noteMatch_matchIndex]
    split_ifs
    · exact ⟨by omega, hend⟩
    · exact h.matched p hp
  rw [noteMatch_nextIndex]
  split_ifs
  · exact ⟨by omega, Int.add_le_add_right hend 1⟩
  · exact h.next p hp

theorem Sound.failure (h : s.Sound) (hsent : ⟨peer, req⟩ ∈ s.sent)
    (hback : 1 < s.node.nextIndex.get peer) :
    Sound ⟨s.node.stepBack peer, s.sent, s.node.matchIndex⟩ := by
  have hpeer : peer ∈ s.node.peers := (h.requests _ hsent).1
  refine ⟨h.leader, h.numbered, h.commit, h.requests, h.matched, ?_⟩
  intro p hp
  rw [stepBack_nextIndex]
  split_ifs
  · have := (h.next peer hpeer).2
    exact ⟨by omega, (Int.sub_le_self _ (by decide)).trans this⟩
  · exact h.next p hp

/-- **Everything a step can do.** -/
inductive Moves (s : Leadership) : LeaderAction → Leadership → Prop where
  | appended (disk : Disk) (entryType : String) (data : List UInt8) (now : Int) :
    Moves s (.appendEntry disk entryType data now)
      ⟨(s.node.appendEntry disk entryType data now).1, s.sent, s.node.matchIndex⟩
  | sent {peer : String} {req : AppendRequest} (member : peer ∈ s.node.peers)
      (built : s.node.replicateToFollower peer = some req) :
    Moves s (.replicate peer) ⟨s.node, ⟨peer, req⟩ :: s.sent, s.node.matchIndex⟩
  | ignored (peer : String) (req : AppendRequest) (resp : AppendResponse) :
    Moves s (.respond peer req resp) ⟨s.node, s.sent, s.node.matchIndex⟩
  | success {peer : String} {req : AppendRequest} {resp : AppendResponse} {commit : Int}
      (known : ⟨peer, req⟩ ∈ s.sent) (term : resp.term = s.node.currentTerm)
      (ok : resp.success = true) (carries : req.entries ≠ [])
      (committed : s.node.commitIndex ≤ commit) :
    Moves s (.respond peer req resp)
      ⟨{ s.node.noteMatch peer (req.prevLogIndex + req.entries.length) with
        commitIndex := commit }, s.sent, s.node.matchIndex⟩
  | failure {peer : String} {req : AppendRequest} {resp : AppendResponse}
      (known : ⟨peer, req⟩ ∈ s.sent) (term : resp.term = s.node.currentTerm)
      (failed : resp.success = false) (back : 1 < s.node.nextIndex.get peer) :
    Moves s (.respond peer req resp) ⟨s.node.stepBack peer, s.sent, s.node.matchIndex⟩

theorem step_moves (h : s.step a = some t) : Moves s a t := by
  cases a with
  | appendEntry disk entryType data now =>
    cases h
    exact .appended disk entryType data now
  | replicate peer =>
    rw [step, ite_none_right_eq_some, map_eq_some_iff] at h
    obtain ⟨hpeer, req, hreq, rfl⟩ := h
    exact .sent hpeer hreq
  | respond peer req resp =>
    rw [step, ite_none_right_eq_some, map_eq_some_iff] at h
    obtain ⟨hsent, rn, hrn, rfl⟩ := h
    rcases handleAppendEntriesResponse_cases hrn with rfl |
      ⟨-, hterm, hsucc, hne, matched, rfl, rfl | ⟨m, e, hlt, -, -, -, rfl⟩⟩ |
      ⟨-, hterm, hfail, hback, rfl⟩
    · exact .ignored peer req resp
    · exact .success hsent hterm hsucc hne (le_refl _)
    · exact .success hsent hterm hsucc hne hlt.le
    · exact .failure hsent hterm hfail hback

/-- **Sound in any order.** -/
theorem Sound.step (h : s.Sound) (hstep : s.step a = some t) : t.Sound := by
  cases step_moves hstep with
  | appended disk entryType data now => exact h.appendEntry disk entryType data now
  | sent hpeer hreq => exact h.replicate hpeer hreq
  | ignored peer req resp =>
    exact ⟨h.leader, h.numbered, h.commit, h.requests, h.matched, h.next⟩
  | success hsent _ _ hne hcommit => exact h.success hsent hne (h.commit.trans hcommit)
  | failure hsent _ _ hback => exact h.failure hsent hback

/-- **Responses in order keep the bookkeeping consistent.** -/
theorem Consistent.step (h : s.Consistent) (hsound : s.Sound) (hok : s.InOrder a)
    (hstep : s.step a = some t) : t.Consistent := by
  have hsound' := hsound.step hstep
  refine ⟨fun p hp => ?_, fun p hp => ?_, ?_, ?_⟩
  · rw [hsound'.lastLogIndex]
    exact hsound'.matched p hp
  · rw [hsound'.lastLogIndex]
    exact hsound'.next p hp
  · cases step_moves hstep with
    | appended disk entryType data now =>
      rw [appendEntry_leader hsound.leader]
      exact h.below
    | sent _ _ => exact h.below
    | ignored _ _ _ => exact h.below
    | success hsent hterm hsucc hne _ =>
      intro p hp
      rw [noteMatch_matchIndex, noteMatch_nextIndex]
      split_ifs
      · omega
      · exact h.below p hp
    | failure hsent hterm hfail hback =>
      intro p hp
      rw [stepBack_nextIndex]
      split_ifs with heq
      · have := (hok hsent hterm).2 hfail hback
        rw [heq]
        show s.node.matchIndex.get _ < _
        omega
      · exact h.below p hp
  · cases step_moves hstep with
    | appended disk entryType data now =>
      rw [appendEntry_leader hsound.leader]
      exact fun p _ => le_refl _
    | sent _ _ => exact fun p _ => le_refl _
    | ignored _ _ _ => exact fun p _ => le_refl _
    | success hsent hterm hsucc hne _ =>
      intro p hp
      rw [noteMatch_matchIndex]
      split_ifs with heq
      · rw [heq]
        exact (hok hsent hterm).1 hsucc hne
      · exact le_refl _
    | failure _ _ _ _ => exact fun p _ => le_refl _

/-- **A response out of order breaks it.** -/
theorem Sound.breaks (h : s.Sound) (hbad : ¬s.InOrder a) :
    ∃ t, s.step a = some t ∧ ¬t.Consistent := by
  cases a with
  | appendEntry disk entryType data now => exact absurd trivial hbad
  | replicate peer => exact absurd trivial hbad
  | respond peer req resp =>
    rw [InOrder] at hbad
    push Not at hbad
    obtain ⟨hsent, hterm, hbad⟩ := hbad
    have hpeer : peer ∈ s.node.peers := (h.requests _ hsent).1
    have htaken := @handleAppendEntriesResponse_taken .healthy s.node peer req resp h.leader hterm
    rw [Leadership.step, if_pos hsent, htaken]
    by_cases hlate : resp.success = true ∧ req.entries ≠ [] ∧
        req.prevLogIndex + req.entries.length < s.node.matchIndex.get peer
    · -- the match index goes back
      obtain ⟨hsucc, hne, hlt⟩ := hlate
      rw [if_pos hsucc, if_neg hne]
      obtain ⟨rn, hrn⟩ := @updateCommitIndex_isSome
        (s.node.noteMatch peer (req.prevLogIndex + req.entries.length)) h.commit
      rw [hrn]
      refine ⟨_, rfl, fun hcons => ?_⟩
      have hmaps : rn.peers = s.node.peers ∧
          rn.matchIndex.get peer = req.prevLogIndex + req.entries.length := by
        have hlead : (s.node.noteMatch peer (req.prevLogIndex + req.entries.length)).state =
            .leader := h.leader
        rcases updateCommitIndex_cases hlead hrn with rfl | ⟨m, e, -, -, -, -, rfl⟩ <;>
          exact ⟨rfl, (noteMatch_matchIndex ..).trans (if_pos rfl)⟩
      have hgrows : s.node.matchIndex.get peer ≤ rn.matchIndex.get peer :=
        hcons.grows peer (hmaps.1 ▸ hpeer)
      omega
    · -- the next index meets the match index
      have hfail : resp.success = false ∧ 1 < s.node.nextIndex.get peer ∧
          s.node.nextIndex.get peer ≤ s.node.matchIndex.get peer + 1 :=
        hbad fun hsucc hne => not_lt.mp fun hlt => hlate ⟨hsucc, hne, hlt⟩
      obtain ⟨hfailed, hback, hle⟩ := hfail
      rw [if_neg (by simp [hfailed]), if_pos hback]
      refine ⟨_, rfl, fun hcons => ?_⟩
      have hbelow : s.node.matchIndex.get peer < (s.node.stepBack peer).nextIndex.get peer :=
        hcons.below peer hpeer
      rw [stepBack_nextIndex, if_pos rfl] at hbelow
      omega

/-- **When the bookkeeping is consistent.** In all states of a run the indexes of all peers are
in their bounds and in order and no match index decreases, exactly if the responses are in
order. -/
theorem consistent_iff (rn : RaftNode) (actions : List LeaderAction) (hnum : Numbered rn.log)
    (hcommit : 0 ≤ rn.commitIndex) : (∀ t ∈ Lts.trace step (start rn) actions, t.Consistent) ↔
      Lts.Along step InOrder (start rn) actions := by
  have hinv : ∀ s a t, Sound s → s.step a = some t → t.Sound := fun s a t h hs => h.step hs
  have hkeep : ∀ s a t, Sound s → s.Consistent → s.InOrder a → s.step a = some t →
      t.Consistent := fun s a t hsound h hok hs => h.step hsound hok hs
  have hbreak : ∀ s a, Sound s → s.Consistent → ¬s.InOrder a →
      ∃ t, s.step a = some t ∧ ¬t.Consistent := fun s a hsound _ hbad => hsound.breaks hbad
  exact Lts.forall_trace_iff_along hinv hkeep hbreak actions (start rn)
    (sound_start hnum hcommit) (consistent_start hnum)

/-- The candidate of term 1 with one peer that is about to lead. -/
def candidate : RaftNode := ((newRaftNode "n1" .none).addPeer "n2").startElection .healthy

/-- Two entries are appended, and each time the peer is sent the log from index 1. -/
def twoRequests : List LeaderAction :=
  [.appendEntry .healthy "put" [] 0, .replicate "n2", .appendEntry .healthy "put" [] 0,
    .replicate "n2"]

/-- The response to the request with the first `n` entries. -/
def response (n : Nat) (success : Bool) : LeaderAction :=
  .respond "n2" ⟨1, "n1", 0, 0, [⟨1, 1, "put", [], 0⟩, ⟨2, 1, "put", [], 0⟩].take n, 0⟩
    ⟨1, success, n, "n2"⟩

theorem consistent_in_order :
    let actions := twoRequests ++ [response 1 true, response 2 true]
    (Lts.exec step (start candidate) actions).map (fun s => s.node.matchIndex.get "n2") = some 2 ∧
      ∀ t ∈ Lts.trace step (start candidate) actions, t.Consistent :=
  ⟨by decide +kernel,
    (consistent_iff candidate _ numbered_nil (le_refl 0)).mpr (by decide +kernel)⟩

/-- **Late responses.** The success of both entries is followed by that of the first: matchIndex
falls from 2 to 1. Or by a failure of the first: matchIndex and nextIndex are both 2. -/
theorem late_response_counterexample :
    let report : Leadership → Int × Int := fun s =>
      (s.node.matchIndex.get "n2", s.node.nextIndex.get "n2")
    let run := fun responses =>
      (Lts.exec step (start candidate) (twoRequests ++ responses)).map report
    run [response 2 true] = some (2, 3) ∧ run [response 2 true, response 1 true] = some (1, 2) ∧
      run [response 2 true, response 1 false] = some (2, 2) := by
  decide +kernel

end Leadership

end DistributedKV.Consensus
