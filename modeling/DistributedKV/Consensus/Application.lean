import DistributedKV.Lib.Lts
import DistributedKV.Consensus.Calls

/-!
# Applying committed entries

The goroutine of `applyEntries` counts an entry in `lastApplied` and gives the lock back while
the state machine works on it, so every other call can run before the entry is handed over and
again before the loop has the lock back.

The system is one node, its loop and the entries handed over so far; `Keeps` is what is assumed of
all other calls. The `applyEntryCh` branch is left out: nothing ever sends on that channel.
-/

namespace DistributedKV.Consensus

/-- Where the loop is without the lock: waiting, about to hand an entry over, or back from it.
-/
inductive LoopPosition where
  | idle
  | holding (entry : LogEntry)
  | applied

/-- The loop of `applyEntries` while it has the lock: move `lastApplied` on to the next entry to
hand over. A turn without one (an index past the log, no state machine) goes on with the next;
`none` is an index panic. -/
def RaftNode.takeNext (stateMachine : Bool) :
    Nat → RaftNode → Option (RaftNode × Option LogEntry)
  | 0, rn => some (rn, none)
  | fuel + 1, rn =>
    if rn.lastApplied < rn.commitIndex then
      let rn := { rn with lastApplied := rn.lastApplied + 1 }
      if rn.lastApplied ≤ rn.log.length then
        match entryAt rn.log rn.lastApplied with
        | none => none
        | some entry =>
          if stateMachine then some (rn, some entry) else takeNext stateMachine fuel rn
      else takeNext stateMachine fuel rn
    else some (rn, none)

/-- `lastApplied` catches up with `commitIndex` in at most so many turns. -/
def RaftNode.pending (rn : RaftNode) : Nat := (rn.commitIndex - rn.lastApplied).toNat

/-- A node with a state machine, its loop, the entries handed over, and the
highest commit index so far. -/
structure Applier where
  node : RaftNode
  position : LoopPosition
  handed : List LogEntry
  committed : Int

/-- Another call of the node, or the next piece of the loop. -/
inductive ApplierAction where
  | call (disk : Disk) (call : Call)
  | loop

namespace Applier

/-- One piece of work under the lock, or the call of the state machine. -/
def step (s : Applier) : ApplierAction → Option Applier
  | .call disk call =>
    (call.run disk s.node).map fun rn =>
      ⟨rn, s.position, s.handed, max s.committed rn.commitIndex⟩
  | .loop =>
    match s.position with
    | .holding entry => some ⟨s.node, .applied, s.handed ++ [entry], s.committed⟩
    | .idle | .applied =>
      (s.node.takeNext true s.node.pending).map fun next =>
        ⟨next.1, (next.2.map LoopPosition.holding).getD .idle, s.handed, s.committed⟩

def init (id : String) (files : NodeFiles) : Applier := ⟨newRaftNode id files, .idle, [], 0⟩

/-- The call leaves the commit index within the log and all entries ever committed as they are.
-/
def Keeps (s : Applier) : ApplierAction → Prop
  | .call disk call => ∀ t ∈ s.step (.call disk call),
    t.node.commitIndex ≤ t.node.log.length ∧
      t.node.log.take s.committed.toNat = s.node.log.take s.committed.toNat
  | .loop => True

instance (s : Applier) : ∀ a, Decidable (s.Keeps a) := fun a => by
  cases a <;> dsimp only [Keeps] <;> infer_instance

/-- What was handed over, for each position of the loop. -/
def HandedOver (s : Applier) : Prop :=
  match s.position with
  | .holding entry => 1 ≤ s.node.lastApplied ∧
    s.handed = s.node.log.take (s.node.lastApplied - 1).toNat ∧
    entryAt s.node.log s.node.lastApplied = some entry
  | .idle | .applied => s.handed = s.node.log.take s.node.lastApplied.toNat

/-- The invariant of the loop. -/
structure InStep (s : Applier) : Prop where
  nonneg : 0 ≤ s.node.lastApplied
  below : s.node.lastApplied ≤ s.committed
  commit : s.node.commitIndex ≤ s.committed
  stored : s.committed ≤ s.node.log.length
  handed : s.HandedOver

theorem inStep_init (id : String) (files : NodeFiles) : (init id files).InStep :=
  ⟨le_refl _, le_refl _, le_refl _, le_refl _, rfl⟩

end Applier

/-! ## The calls and the loop -/

theorem Call.run_lastApplied {disk : Disk} {rn rn' : RaftNode} {call : Call}
    (h : call.run disk rn = some rn') : rn'.lastApplied = rn.lastApplied := by
  cases Call.effect h with
  | steady hsteady _ => exact hsteady.lastApplied
  | added id => rw [RaftNode.addPeer_eq]
  | removed id => rfl
  | elected _ _ _ => rfl
  | answered _ _ _ htaken =>
    rcases RaftNode.handleAppendEntriesResponse_cases htaken with rfl |
      ⟨-, -, -, -, matched, rfl, rfl | ⟨m, e, -, -, -, -, rfl⟩⟩ | ⟨-, -, -, -, rfl⟩ <;>
    rfl

/-- With the commit index within the log, the loop takes the next entry, or finds
that there is none. -/
theorem RaftNode.takeNext_eq {rn : RaftNode} (hnonneg : 0 ≤ rn.lastApplied)
    (hlen : rn.commitIndex ≤ rn.log.length) :
    (rn.commitIndex ≤ rn.lastApplied ∧ rn.takeNext true rn.pending = some (rn, none)) ∨
    ∃ entry, rn.lastApplied < rn.commitIndex ∧ entryAt rn.log (rn.lastApplied + 1) = some entry ∧
      rn.takeNext true rn.pending =
        some ({ rn with lastApplied := rn.lastApplied + 1 }, some entry) := by
  by_cases hlt : rn.lastApplied < rn.commitIndex
  · obtain ⟨fuel, hfuel⟩ : ∃ fuel, rn.pending = fuel + 1 :=
      ⟨rn.pending - 1, by unfold pending; omega⟩
    obtain ⟨k, hk⟩ : ∃ k : Nat, rn.lastApplied = k := ⟨rn.lastApplied.toNat, by omega⟩
    have hentry : entryAt rn.log (rn.lastApplied + 1) = some (rn.log.get ⟨k, by omega⟩) := by
      rw [hk, entryAt_succ, List.getElem?_eq_getElem (by omega)]
      rfl
    refine Or.inr ⟨_, hlt, hentry, ?_⟩
    rw [hfuel, takeNext, if_pos hlt, if_pos (by dsimp only; omega), hentry]
    rfl
  · have hfuel : rn.pending = 0 := by
      unfold pending
      omega
    rw [hfuel]
    exact Or.inl ⟨by omega, rfl⟩

namespace Applier

theorem InStep.call {s : Applier} (h : s.InStep) {disk : Disk} {call : Call} {rn : RaftNode}
    (hrn : call.run disk s.node = some rn) (hlen : rn.commitIndex ≤ rn.log.length)
    (hkept : rn.log.take s.committed.toNat = s.node.log.take s.committed.toNat) :
    InStep ⟨rn, s.position, s.handed, max s.committed rn.commitIndex⟩ := by
  have happlied := Call.run_lastApplied hrn
  have hnonneg := h.nonneg
  have hbelow := h.below
  have hstored := h.stored
  have hsame : ∀ n : Nat, n ≤ s.committed.toNat → rn.log.take n = s.node.log.take n := by
    intro n hn
    have := congrArg (List.take n) hkept
    rwa [List.take_take, List.take_take, Nat.min_eq_left hn] at this
  have hlength : s.committed ≤ rn.log.length := by
    have := congrArg List.length hkept
    rw [List.length_take, List.length_take] at this
    omega
  refine ⟨?_, ?_, ?_, ?_, ?_⟩
  · show 0 ≤ rn.lastApplied
    omega
  · show rn.lastApplied ≤ max s.committed rn.commitIndex
    omega
  · exact le_max_right _ _
  · exact max_le hlength hlen
  have hhanded := h.handed
  unfold HandedOver at hhanded ⊢
  rw [happlied]
  cases hpos : s.position with
  | holding entry =>
    rw [hpos] at hhanded
    obtain ⟨hone, hlist, hentry⟩ := hhanded
    refine ⟨hone, ?_, ?_⟩
    · rw [hsame _ (by omega)]
      exact hlist
    · rw [← hentry]
      exact entryAt_congr (hsame _ (by omega))
  | idle | applied =>
    rw [hpos] at hhanded
    show s.handed = _
    rw [hsame _ (by omega)]
    exact hhanded

/-- The loop gets the lock with everything up to `lastApplied` handed over. -/
theorem InStep.locked {s t : Applier} (h : s.InStep)
    (hhanded : s.handed = s.node.log.take s.node.lastApplied.toNat)
    (ht : (s.node.takeNext true s.node.pending).map (fun next =>
      (⟨next.1, (next.2.map LoopPosition.holding).getD .idle, s.handed, s.committed⟩ : Applier)) =
        some t) : t.InStep := by
  have hnonneg := h.nonneg
  have hcommit := h.commit
  rcases RaftNode.takeNext_eq h.nonneg (h.commit.trans h.stored) with ⟨-, htake⟩ |
    ⟨entry, hlt, hentry, htake⟩
  · rw [htake] at ht
    cases ht
    exact ⟨h.nonneg, h.below, h.commit, h.stored, hhanded⟩
  rw [htake] at ht
  cases ht
  refine ⟨?_, ?_, h.commit, h.stored, ?_, ?_, hentry⟩
  · show 0 ≤ s.node.lastApplied + 1
    omega
  · show s.node.lastApplied + 1 ≤ s.committed
    omega
  · show 1 ≤ s.node.lastApplied + 1
    omega
  · rw [Int.add_sub_cancel]
    exact hhanded

/-- The state machine gets the entry that `lastApplied` counts. -/
theorem InStep.deliver {s : Applier} (h : s.InStep) {entry : LogEntry}
    (hpos : s.position = .holding entry) :
    InStep ⟨s.node, .applied, s.handed ++ [entry], s.committed⟩ := by
  have hhanded := h.handed
  unfold HandedOver at hhanded
  rw [hpos] at hhanded
  obtain ⟨hone, hlist, hentry⟩ := hhanded
  refine ⟨h.nonneg, h.below, h.commit, h.stored, ?_⟩
  obtain ⟨k, hk⟩ : ∃ k : Nat, s.node.lastApplied = (k : Int) + 1 :=
    ⟨(s.node.lastApplied - 1).toNat, by omega⟩
  rw [hk, entryAt_succ] at hentry
  show s.handed ++ [entry] = s.node.log.take s.node.lastApplied.toNat
  rw [hlist, hk, Int.add_sub_cancel, Int.toNat_natCast, Int.toNat_natCast_add_one,
    List.take_add_one, hentry]
  rfl

/-- **One step keeps the invariant.** -/
theorem InStep.step {s t : Applier} {a : ApplierAction} (h : s.InStep) (hok : s.Keeps a)
    (hstep : s.step a = some t) : t.InStep := by
  cases a with
  | call disk call =>
    obtain ⟨hlen, hkept⟩ := hok t hstep
    obtain ⟨rn, hrn, rfl⟩ := Option.map_eq_some_iff.mp hstep
    exact h.call hrn hlen hkept
  | loop =>
    have hhanded := h.handed
    unfold HandedOver at hhanded
    rw [Applier.step] at hstep
    cases hpos : s.position with
    | holding entry =>
      rw [hpos] at hstep
      cases hstep
      exact h.deliver hpos
    | idle | applied =>
      rw [hpos] at hstep hhanded
      exact h.locked hhanded hstep

theorem InStep.handed_eq {s : Applier} (h : s.InStep) :
    ∃ n : Nat, (s.node.lastApplied = n ∨ s.node.lastApplied = (n : Int) + 1) ∧
      n ≤ s.node.log.length ∧ s.handed = s.node.log.take n := by
  have hnonneg := h.nonneg
  have hstored := h.below.trans h.stored
  have hhanded := h.handed
  unfold HandedOver at hhanded
  cases hpos : s.position with
  | holding entry =>
    rw [hpos] at hhanded
    obtain ⟨hone, hlist, -⟩ := hhanded
    exact ⟨_, Or.inr (by omega), by omega, hlist⟩
  | idle | applied =>
    rw [hpos] at hhanded
    exact ⟨_, Or.inl (by omega), by omega, hhanded⟩

/-- **Exactly once, in order.** In every interleaving of the loop with calls that keep committed
entries, the entries handed over are the first `n` of the log, with `n` `lastApplied` or one
less. -/
theorem applied_in_order (id : String) (files : NodeFiles) (actions : List ApplierAction)
    (hok : Lts.Along step Keeps (init id files) actions) :
    ∀ s ∈ Lts.trace step (init id files) actions,
      ∃ n : Nat, (s.node.lastApplied = n ∨ s.node.lastApplied = (n : Int) + 1) ∧
        n ≤ s.node.log.length ∧ s.handed = s.node.log.take n := by
  intro s hs
  have hinv : s.InStep :=
    hok.forall_trace (inStep_init id files) (fun _ _ _ h hkeeps hstep => h.step hkeeps hstep) s hs
  exact hinv.handed_eq

/-- While the first entry of a follower is on its way, a new leader replaces and commits the
second. -/
theorem applied_in_order_replaced :
    let first : LogEntry := ⟨1, 1, "put", [], 0⟩
    let old : LogEntry := ⟨2, 1, "put", [], 0⟩
    let new : LogEntry := ⟨2, 2, "put", [], 0⟩
    let actions : List ApplierAction :=
      [.call .healthy (.appendRequest ⟨1, "n2", 0, 0, [first, old], 1⟩), .loop,
        .call .healthy (.appendRequest ⟨2, "n3", 1, 1, [new], 2⟩), .loop, .loop, .loop]
    (Lts.exec step (init "n1" .none) actions).map Applier.handed = some [first, new] ∧
      ∀ s ∈ Lts.trace step (init "n1" .none) actions,
        ∃ n : Nat, (s.node.lastApplied = n ∨ s.node.lastApplied = (n : Int) + 1) ∧
          n ≤ s.node.log.length ∧ s.handed = s.node.log.take n :=
  ⟨by decide +kernel, applied_in_order "n1" .none _ (by decide +kernel)⟩

end Applier

end DistributedKV.Consensus
