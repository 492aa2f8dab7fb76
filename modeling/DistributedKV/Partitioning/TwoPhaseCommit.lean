import DistributedKV.Lib.Lts
import DistributedKV.Partitioning.Coordinator

/-!
# What two-phase commit guarantees

There is no way to go on after a partial commit but to abort (`agreement_iff`). The coordinator
does not check that an execution finds the transaction pending, nor that no cleanup times it out
while it is being prepared (`outcomes_final`).
-/

namespace DistributedKV.Partitioning

open Lts AList FanOut List Option

/-- The status that an execution in this phase has written, if nobody else writes. -/
def Phase.Fits : Phase → TransactionStatus → Prop
  | .found, _ => True
  | .preparing _, status | .voted, status => status = .preparing
  | .committing _, status => status = .prepared
  | .failing, status => status = .preparing ∨ status = .prepared
  | .aborting _, status => status = .aborted
  | .committed, status => status = .committed

namespace TxState

variable {env : Environment} {s s' : TxState} {i : Nat} {phase : Phase} {a : Action}

/-! ## What a step can do -/

/-- The steps of one execution. -/
inductive Advances (env : Environment) (s : TxState) (i : Nat) : Phase → Action → TxState → Prop
  | prepare {j now} : Advances env s i .found (.setPreparing j now)
      (s.write i (.preparing (.start s.tx.participants.keys)) .preparing now)
  | sendPrepare {j p round round'} (hsend : round.send p = some round') :
      Advances env s i (.preparing round) (.sendPrepare j p)
        (s.tell i (.preparing round') (.prepareSent i p))
  | vote {j p round round'} (hanswer : round.answer p (env.votes i p) = some round') :
      Advances env s i (.preparing round) (.receiveVote j p)
        ((s.move i (.preparing round')).storeVote p (env.prepare i p))
  | reject {j round} (hended : round.ended = true)
      (hbad : round.failed = true ∨ ∃ e ∈ s.tx.votes.entries, e.2 ≠ .commit) :
      Advances env s i (.preparing round) (.checkVotes j) (s.move i .failing)
  | accept {j round} (hended : round.ended = true) (hgood : round.failed = false) :
      Advances env s i (.preparing round) (.checkVotes j) (s.move i .voted)
  | prepared {j now} : Advances env s i .voted (.setPrepared j now)
      (s.write i (.committing (.start s.tx.participants.keys)) .prepared now)
  | sendCommit {j p round round'} (hsend : round.send p = some round') :
      Advances env s i (.committing round) (.sendCommit j p)
        (s.tell i (.committing round') (.commitSent i p))
  | ack {j p round round'} (hanswer : round.answer p (env.acks i p) = some round')
      (hack : env.acks i p = true) : Advances env s i (.committing round) (.receiveAck j p)
        (s.tell i (.committing round') (.commitAcked i p))
  | nack {j p round round'} (hanswer : round.answer p (env.acks i p) = some round')
      (hack : env.acks i p = false) : Advances env s i (.committing round) (.receiveAck j p)
        (s.move i (.committing round'))
  | fail {j now round} (hended : round.ended = true) (hbad : round.failed = true) :
      Advances env s i (.committing round) (.finishCommit j now) (s.move i .failing)
  | commit {j now round} (hended : round.ended = true) (hgood : round.failed = false) :
      Advances env s i (.committing round) (.finishCommit j now)
        (s.write i .committed .committed now)
  | abort {j now} : Advances env s i .failing (.setAborted j now)
      (s.write i (.aborting s.tx.participants.keys) .aborted now)
  | sendAbort {j p unsent} (hmem : p ∈ unsent) :
    Advances env s i (.aborting unsent) (.sendAbort j p)
      (s.tell i (.aborting (unsent.erase p)) (.abortSent i p))

theorem advances_of_advance (h : s.advance env i phase a = some s') :
    Advances env s i phase a s' := by
  unfold advance at h
  split at h
  · cases h
    exact .prepare
  · obtain ⟨round', hsend, rfl⟩ := map_eq_some_iff.mp h
    exact .sendPrepare hsend
  · obtain ⟨round', hanswer, rfl⟩ := map_eq_some_iff.mp h
    exact .vote hanswer
  · split at h
    · cases h
    · next hended =>
      rw [Bool.not_eq_true, Bool.not_eq_false'] at hended
      split at h
      · next hbad =>
        cases h
        refine .reject hended ?_
        simpa [List.any_eq_true] using hbad
      · next hgood =>
        cases h
        rw [Bool.or_eq_true, not_or, Bool.not_eq_true] at hgood
        exact .accept hended hgood.1
  · cases h
    exact .prepared
  · obtain ⟨round', hsend, rfl⟩ := map_eq_some_iff.mp h
    exact .sendCommit hsend
  · obtain ⟨round', hanswer, rfl⟩ := map_eq_some_iff.mp h
    split
    · next hack => exact .ack hanswer hack
    · next hack => exact .nack hanswer (Bool.not_eq_true _ ▸ hack)
  · split at h
    · cases h
    · next hended =>
      rw [Bool.not_eq_true, Bool.not_eq_false'] at hended
      split at h
      · next hbad =>
        cases h
        exact .fail hended hbad
      · next hgood =>
        cases h
        exact .commit hended (Bool.not_eq_true _ ▸ hgood)
  · cases h
    exact .abort
  · split at h
    · next hmem =>
      cases h
      exact .sendAbort hmem
    · cases h
  · cases h

/-- **All steps**: an execution advances or begins, an operation is added, a cleanup passes, or
nothing happens. -/
inductive Steps (env : Environment) (s : TxState) : Action → TxState → Prop
  | advance {a : Action} {i : Nat} {phase : Phase} {s' : TxState} (hexec : a.execution = some i)
      (hlook : s.executions.lookup i = some phase) (hadv : Advances env s i phase a s') :
      Steps env s a s'
  | execute {i : Nat} (hnew : i ∉ s.executions) : Steps env s (.execute i) (s.move i .found)
  | absent {a : Action} : Steps env s a s
  | add {operation route now} : Steps env s (.addOperation operation route now)
      { s with tx := (s.tx.addOperation operation route now).1 }
  | cleanup {now} : Steps env s (.cleanup now) (s.cleanup now)

theorem steps_of_step (h : s.step env a = some s') : Steps env s a s' := by
  unfold step at h
  split at h
  · split at h
    · cases h
    next hnew =>
      split at h <;> obtain rfl := some.inj h
      · exact .execute hnew
      · exact .absent
  · split at h <;> obtain rfl := some.inj h
    · exact .add
    · exact .absent
  · cases h
    exact .cleanup
  · obtain ⟨i, hexec, h⟩ := bind_eq_some_iff.mp h
    obtain ⟨phase, hlook, h⟩ := bind_eq_some_iff.mp h
    exact .advance hexec hlook (advances_of_advance h)

theorem lookup_move (s : TxState) (i j : Nat) (phase : Phase) :
    (s.move i phase).executions.lookup j =
      if j = i then some phase else s.executions.lookup j :=
  GoMap.lookup_insert_ite

@[simp] theorem log_move (s : TxState) (i : Nat) (phase : Phase) : (s.move i phase).log = s.log :=
  rfl

@[simp] theorem log_write (s : TxState) (i : Nat) (phase : Phase) (status : TransactionStatus)
    (now : Int) : (s.write i phase status now).log = s.log :=
  rfl

@[simp] theorem log_tell (s : TxState) (i : Nat) (phase : Phase) (message : Message) :
    (s.tell i phase message).log = message :: s.log :=
  rfl

@[simp] theorem tx_move (s : TxState) (i : Nat) (phase : Phase) : (s.move i phase).tx = s.tx := rfl

@[simp] theorem tx_tell (s : TxState) (i : Nat) (phase : Phase) (message : Message) :
    (s.tell i phase message).tx = s.tx :=
  rfl

@[simp] theorem executions_storeVote (s : TxState) (p : UInt32) (outcome : PrepareOutcome) :
    (s.storeVote p outcome).executions = s.executions := by
  cases outcome <;> rfl

@[simp] theorem log_storeVote (s : TxState) (p : UInt32) (outcome : PrepareOutcome) :
    (s.storeVote p outcome).log = s.log := by
  cases outcome <;> rfl

@[simp] theorem status_storeVote (s : TxState) (p : UInt32) (outcome : PrepareOutcome) :
    (s.storeVote p outcome).tx.status = s.tx.status := by
  cases outcome <;> rfl

@[simp] theorem participants_storeVote (s : TxState) (p : UInt32) (outcome : PrepareOutcome) :
    (s.storeVote p outcome).tx.participants = s.tx.participants := by
  cases outcome <;> rfl

/-- A cleanup pass only writes the status, and only if the transaction is timed out. -/
theorem cleanup_spec (s : TxState) (now : Int) :
    (s.cleanup now).executions = s.executions ∧ (s.cleanup now).log = s.log ∧
    (s.cleanup now).tx.participants = s.tx.participants ∧ (s.cleanup now).tx.votes = s.tx.votes ∧
    ((s.cleanup now).tx.status = s.tx.status ∨
      (s.tx.status = .pending ∨ s.tx.status = .preparing) ∧ s.tx.TimedOut now ∧
        (s.cleanup now).tx.status = .timeout) := by
  rw [cleanup]
  split
  · exact ⟨rfl, rfl, rfl, rfl, Or.inl rfl⟩
  split
  · next h => exact ⟨rfl, rfl, rfl, rfl, Or.inr ⟨h.1, h.2, rfl⟩⟩
  · exact ⟨rfl, rfl, rfl, rfl, Or.inl rfl⟩

/-- Adding an operation writes no status and needs a pending transaction. -/
theorem addOperation_spec (tx : Transaction) (operation : TransactionOperation)
    (route : Except String UInt32) (now : Int) :
    (tx.addOperation operation route now).1.status = tx.status ∧
    (tx.addOperation operation route now).1.votes = tx.votes ∧
    (∀ p ∈ tx.participants, p ∈ (tx.addOperation operation route now).1.participants) ∧
    (tx.status ≠ .pending → (tx.addOperation operation route now).1 = tx) := by
  unfold Transaction.addOperation
  split
  · exact ⟨rfl, rfl, fun p hp => hp, fun _ => rfl⟩
  next hpending =>
    split
    · exact ⟨rfl, rfl, fun p hp => hp, fun _ => rfl⟩
    · exact ⟨rfl, rfl, fun p hp => (mem_insert _).mpr (Or.inr hp), fun h => absurd h hpending⟩

/-! ## Outcomes are final -/

/-- At most one execution has gone beyond looking the transaction up, the status is its own, and
so are the commit requests. -/
structure Owned (s : TxState) : Prop where
  unique : ∀ i j p q, s.executions.lookup i = some p → s.executions.lookup j = some q →
    p ≠ .found → q ≠ .found → i = j
  fits : ∀ i p, s.executions.lookup i = some p → p.Fits s.tx.status
  pending : s.tx.status = .pending → ∀ i p, s.executions.lookup i = some p → p = .found
  commits : ∀ i shardID, .commitSent i shardID ∈ s.log →
    ∃ p, s.executions.lookup i = some p ∧ p ≠ .found

/-- The step starts to prepare only a pending transaction, and does not time out one being
prepared. -/
def Orderly (s : TxState) : Action → Prop
  | .setPreparing _ _ => s.tx.status = .pending
  | .cleanup now => s.tx.status = .preparing → ¬s.tx.TimedOut now
  | _ => True

instance (s : TxState) (a : Action) : Decidable (s.Orderly a) := by
  cases a <;> dsimp only [Orderly] <;> infer_instance

theorem owned_start (tx : Transaction) : (start tx).Owned :=
  ⟨nofun, nofun, fun _ => nofun, nofun⟩

theorem Owned.moved (h : s.Owned)
    (hothers : ∀ j p, j ≠ i → s.executions.lookup j = some p → p = .found)
    (hexec : s'.executions = (s.move i phase).executions) (hphase : phase ≠ .found)
    (hfits : phase.Fits s'.tx.status) (hstatus : s'.tx.status ≠ .pending)
    (hlog : ∀ j p, .commitSent j p ∈ s'.log → j = i ∨ .commitSent j p ∈ s.log) : s'.Owned := by
  have hlook : ∀ j p, s'.executions.lookup j = some p → p ≠ .found → j = i := by
    intro j p hj hp
    by_contra hne
    rw [hexec, lookup_move, if_neg hne] at hj
    exact hp (hothers j p hne hj)
  refine ⟨fun j k p q hj hk hp hq => (hlook j p hj hp).trans (hlook k q hk hq).symm, ?_, ?_, ?_⟩
  · intro j p hj
    by_cases hne : j = i
    · rw [hexec, lookup_move, if_pos hne] at hj
      exact some.inj hj ▸ hfits
    rw [hexec, lookup_move, if_neg hne] at hj
    rw [hothers j p hne hj]
    trivial
  · exact fun hpending => absurd hpending hstatus
  intro j p hmem
  rw [hexec, lookup_move]
  split_ifs with hne
  · exact ⟨phase, rfl, hphase⟩
  · exact h.commits j p ((hlog j p hmem).resolve_left hne)

theorem Owned.others (h : s.Owned) (hlook : s.executions.lookup i = some phase)
    (hphase : phase ≠ .found) (j : Nat) (p : Phase) (hne : j ≠ i)
    (hj : s.executions.lookup j = some p) : p = .found := by
  by_contra hp
  exact hne (h.unique j i p phase hj hlook hp hphase)

section Advance

variable {phase' : Phase}

/-- The execution at work goes on and does not write the status. -/
theorem Owned.proceed (h : s.Owned) (hlook : s.executions.lookup i = some phase)
    (hphase : phase ≠ .found) (hexec : s'.executions = (s.move i phase').executions)
    (hphase' : phase' ≠ .found) (hstatus : s'.tx.status = s.tx.status)
    (hfits : phase'.Fits s.tx.status)
    (hlog : ∀ j p, .commitSent j p ∈ s'.log → j = i ∨ .commitSent j p ∈ s.log) :
    s'.Owned ∧ (s.tx.status.Terminal → s'.tx.status = s.tx.status) := by
  have hpending : s.tx.status ≠ .pending :=
    fun hpending => hphase (h.pending hpending i phase hlook)
  refine ⟨h.moved (h.others hlook hphase) hexec hphase' ?_ ?_ hlog, fun _ => hstatus⟩
  · rw [hstatus]
    exact hfits
  · rw [hstatus]
    exact hpending

/-- The execution at work writes a status in place of one that is not an outcome. -/
theorem Owned.replace {status : TransactionStatus} {now : Int} (h : s.Owned)
    (hothers : ∀ j p, j ≠ i → s.executions.lookup j = some p → p = .found)
    (hphase' : phase' ≠ .found) (hfits : phase'.Fits status) (hpending : status ≠ .pending)
    (hopen : ¬s.tx.status.Terminal) : (s.write i phase' status now).Owned ∧
      (s.tx.status.Terminal → (s.write i phase' status now).tx.status = s.tx.status) :=
  ⟨h.moved hothers rfl hphase' hfits hpending fun _ _ => Or.inr, fun hterm => absurd hterm hopen⟩

end Advance

theorem Owned.execute (h : s.Owned) (hnew : i ∉ s.executions) : (s.move i .found).Owned := by
  have hlook : ∀ j p, (s.move i .found).executions.lookup j = some p →
      p = .found ∨ s.executions.lookup j = some p := by
    intro j p hj
    rw [lookup_move] at hj
    split at hj
    · exact Or.inl (some.inj hj).symm
    · exact Or.inr hj
  refine ⟨?_, ?_, ?_, ?_⟩
  · intro j k p q hj hk hp hq
    exact h.unique j k p q ((hlook j p hj).resolve_left hp) ((hlook k q hk).resolve_left hq) hp hq
  · intro j p hj
    rcases hlook j p hj with rfl | hj
    · trivial
    · exact h.fits j p hj
  · intro hpending j p hj
    exact (hlook j p hj).elim id (h.pending hpending j p)
  intro j shardID hmem
  obtain ⟨p, hj, hp⟩ := h.commits j shardID hmem
  refine ⟨p, ?_, hp⟩
  rw [lookup_move, if_neg]
  · exact hj
  · rintro rfl
    exact hnew (GoMap.mem_of_lookup hj)

/-- A cleanup that does not interrupt the prepare phase. -/
theorem Owned.cleanup {now : Int} (h : s.Owned)
    (horderly : s.tx.status = .preparing → ¬s.tx.TimedOut now) :
    (s.cleanup now).Owned ∧ (s.tx.status.Terminal → (s.cleanup now).tx.status = s.tx.status) := by
  obtain ⟨hexec, hlog, -, -, hstatus | ⟨hactive, hlate, hstatus⟩⟩ := s.cleanup_spec now
  · refine ⟨⟨?_, ?_, ?_, ?_⟩, fun _ => hstatus⟩ <;> simp only [hexec, hstatus, hlog]
    exacts [h.unique, h.fits, h.pending, h.commits]
  -- only a pending transaction, on which nobody works, is timed out
  have hpending : s.tx.status = .pending := hactive.resolve_right fun hprep => horderly hprep hlate
  have hfound := h.pending hpending
  refine ⟨⟨?_, ?_, ?_, ?_⟩, fun hterm => ?_⟩
  · rw [hexec]
    exact h.unique
  · rw [hexec]
    intro j p hj
    rw [hfound j p hj]
    trivial
  · rw [hstatus]
    nofun
  · rw [hexec, hlog]
    exact h.commits
  · rw [hpending] at hterm
    simp [TransactionStatus.Terminal] at hterm

/-- One step of an execution, which starts to prepare only a pending transaction. -/
theorem Owned.advance (h : s.Owned) (hlook : s.executions.lookup i = some phase)
    (horderly : s.Orderly a) (hadv : Advances env s i phase a s') :
    s'.Owned ∧ (s.tx.status.Terminal → s'.tx.status = s.tx.status) := by
  have hfits := h.fits i phase hlook
  -- a status that is written replaces one that is not an outcome
  cases hadv with
  | prepare =>
    have hpending : s.tx.status = .pending := horderly
    exact h.replace (fun j p _ => h.pending hpending j p) nofun rfl nofun (by rw [hpending]; decide)
  | sendPrepare | ack | sendAbort =>
    exact h.proceed hlook nofun rfl nofun rfl hfits fun _ _ hmem => Or.inr (by simpa using hmem)
  | vote hanswer =>
    exact h.proceed hlook nofun (executions_storeVote ..) nofun (status_storeVote ..) hfits
      fun _ _ hmem => Or.inr (by simpa using hmem)
  | reject =>
    exact h.proceed hlook nofun rfl nofun rfl (Or.inl hfits) fun _ _ => Or.inr
  | accept | nack => exact h.proceed hlook nofun rfl nofun rfl hfits fun _ _ => Or.inr
  | prepared =>
    have hpreparing : s.tx.status = .preparing := hfits
    exact h.replace (h.others hlook nofun) nofun rfl nofun (by rw [hpreparing]; decide)
  | sendCommit hsend =>
    refine h.proceed hlook nofun rfl nofun rfl hfits fun j p hmem => ?_
    rcases mem_cons.mp hmem with heq | hmem
    · exact Or.inl (Message.commitSent.inj heq).1
    · exact Or.inr hmem
  | fail => exact h.proceed hlook nofun rfl nofun rfl (Or.inr hfits) fun _ _ => Or.inr
  | commit =>
    have hprepared : s.tx.status = .prepared := hfits
    exact h.replace (h.others hlook nofun) nofun rfl nofun (by rw [hprepared]; decide)
  | abort =>
    refine h.replace (h.others hlook nofun) nofun rfl nofun ?_
    rcases hfits with heq | heq <;> rw [heq] <;> decide

/-- **One orderly step** keeps the owner and does not change an outcome. -/
theorem Owned.step (h : s.Owned) (horderly : s.Orderly a) (hsteps : Steps env s a s') :
    s'.Owned ∧ (s.tx.status.Terminal → s'.tx.status = s.tx.status) := by
  cases hsteps with
  | absent => exact ⟨h, fun _ => rfl⟩
  | add =>
    obtain ⟨hstatus, -⟩ := addOperation_spec s.tx ‹_› ‹_› ‹_›
    exact ⟨⟨h.unique, hstatus ▸ h.fits, hstatus ▸ h.pending, h.commits⟩, fun _ => hstatus⟩
  | execute hnew => exact ⟨h.execute hnew, fun _ => rfl⟩
  | cleanup => exact h.cleanup horderly
  | advance hexec hlook hadv => exact h.advance hlook horderly hadv

/-- **Outcomes are final.** Along an orderly run, an outcome never changes, and all commit
requests are sent by one execution. -/
theorem outcomes_final {tx : Transaction} {run : List Action}
    (horderly : Along (step env) Orderly (start tx) run) :
    (trace (step env) (start tx) run).Pairwise
      (fun t u => t.tx.status.Terminal → u.tx.status = t.tx.status) ∧
    ∀ t ∈ trace (step env) (start tx) run, ∀ i j p q,
      .commitSent i p ∈ t.log → .commitSent j q ∈ t.log → i = j := by
  have hinv : ∀ pre t, Along (step env) Orderly (start tx) pre →
      exec (step env) (start tx) pre = some t → t.Owned := by
    refine trace_induction (P := fun _ (t : TxState) => t.Owned) (owned_start tx) ?_
    intro pre a t u _ _ howned hok hstep
    exact (howned.step hok (steps_of_step hstep)).1
  constructor
  · refine trace_pairwise (fun t _ => rfl) ?_ run ?_
    · intro t u v htu huv hterm
      have heq := htu hterm
      exact (huv (heq ▸ hterm)).trans heq
    intro pre a t u hpre ht hstep
    obtain ⟨hpre', hlast⟩ := along_append.mp (horderly.restrict hpre)
    exact ((hinv pre t hpre' ht).step (hlast t ht).1 (steps_of_step hstep)).2
  · intro t ht i j p q hi hj
    obtain ⟨pre, hpre, hexec⟩ := mem_trace_iff.mp ht
    have howned := hinv pre t (horderly.restrict hpre) hexec
    obtain ⟨phase, hphase, hne⟩ := howned.commits i p hi
    obtain ⟨phase', hphase', hne'⟩ := howned.commits j q hj
    exact howned.unique i j phase phase' hphase hphase' hne hne'

/-! ## One execution -/

/-- Every participant votes to commit. -/
def AllVote (env : Environment) (i : Nat) (tx : Transaction) : Prop :=
  ∀ p ∈ tx.participants, env.votes i p = true

/-- Every participant acknowledges the commit. -/
def AllAck (env : Environment) (i : Nat) (tx : Transaction) : Prop :=
  ∀ p ∈ tx.participants, env.acks i p = true

/-- All participants vote to commit, some acknowledge the commit, and for some it fails. -/
def PartialCommit (env : Environment) (i : Nat) (tx : Transaction) : Prop :=
  AllVote env i tx ∧ (∃ p ∈ tx.participants, env.acks i p = true) ∧
    ∃ p ∈ tx.participants, env.acks i p = false

/-- The log has no acknowledgement. -/
def NoAcks (i : Nat) (log : List Message) : Prop := ∀ p, .commitAcked i p ∉ log

/-- The log has no abort request. -/
def NoAborts (i : Nat) (log : List Message) : Prop := ∀ p, .abortSent i p ∉ log

/-- No acknowledgement comes after an abort request. -/
def AbortsLast (i : Nat) (log : List Message) : Prop :=
  log.Pairwise fun later earlier =>
    ∀ p q, later = .commitAcked i p → earlier ≠ .abortSent i q

/-- Nobody is sent an abort after somebody else has acknowledged the commit. -/
def NoLateAbort (i : Nat) (log : List Message) : Prop :=
  log.Pairwise fun later earlier =>
    ∀ p q, later = .abortSent i p → earlier = .commitAcked i q → p = q

/-- Why an execution aborts: somebody has not voted to commit and nobody has been asked to, or
the commit has failed for somebody. -/
def Undone (env : Environment) (i : Nat) (tx : Transaction) (log : List Message) : Prop :=
  (¬AllVote env i tx ∧ NoAcks i log) ∨
  (AllVote env i tx ∧ (∃ p ∈ tx.participants, env.acks i p = false) ∧
    ∀ p, .commitAcked i p ∈ log ↔ p ∈ tx.participants ∧ env.acks i p = true)

/-- What holds in each phase. -/
def PhaseInv (env : Environment) (i : Nat) (tx : Transaction) (log : List Message) : Phase → Prop
  | .found => log = []
  | .preparing round =>
    tx.status ≠ .pending ∧ NoAcks i log ∧ NoAborts i log ∧
    round.Tracks tx.participants.keys (env.votes i) ∧
    ∀ p ∈ tx.participants, ¬round.Running p → env.votes i p = true →
      tx.votes.lookup p = some .commit
  | .voted => tx.status ≠ .pending ∧ NoAcks i log ∧ NoAborts i log ∧ AllVote env i tx
  | .committing round =>
    tx.status ≠ .pending ∧ NoAborts i log ∧ AllVote env i tx ∧
    round.Tracks tx.participants.keys (env.acks i) ∧
    ∀ p, .commitAcked i p ∈ log ↔ p ∈ tx.participants ∧ ¬round.Running p ∧ env.acks i p = true
  | .failing => tx.status ≠ .pending ∧ NoAborts i log ∧ Undone env i tx log
  | .aborting unsent =>
    tx.status = .aborted ∧ AbortsLast i log ∧ Undone env i tx log ∧
    ∀ p ∈ tx.participants, p ∈ unsent ∨ .abortSent i p ∈ log
  | .committed =>
    tx.status = .committed ∧ NoAborts i log ∧ AllVote env i tx ∧ AllAck env i tx

/-- The invariant of a run with one execution. -/
structure Single (env : Environment) (i : Nat) (s : TxState) : Prop where
  votes_mem : ∀ p ∈ s.tx.votes, p ∈ s.tx.participants
  idle : s.executions.lookup i = none → s.log = []
  phase : ∀ phase, s.executions.lookup i = some phase → PhaseInv env i s.tx s.log phase

variable {log : List Message} {p q : UInt32} {round round' : FanOut UInt32}

/-- Only the status matters, and of that only what the phase has written. -/
theorem PhaseInv.of_status {tx tx' : Transaction} (h : PhaseInv env i tx log phase)
    (hparts : tx'.participants = tx.participants) (hvotes : tx'.votes = tx.votes)
    (hstatus : tx'.status = tx.status ∨
      (tx.status = .pending ∨ tx.status = .preparing) ∧ tx'.status = .timeout) :
    PhaseInv env i tx' log phase := by
  have hne : tx.status ≠ .pending → tx'.status ≠ .pending := by
    intro hne
    rcases hstatus with heq | ⟨-, heq⟩
    · rwa [heq]
    · rw [heq]
      nofun
  have hsame : ∀ status, status = .aborted ∨ status = .committed → tx.status = status →
      tx'.status = status := by
    rintro status hcase rfl
    refine hstatus.resolve_right ?_
    rintro ⟨hactive, -⟩
    rcases hcase with heq | heq <;> rw [heq] at hactive <;> simp at hactive
  cases phase with
  | found => exact h
  | preparing | voted | committing | failing =>
    obtain ⟨hst, hrest⟩ := h
    simp only [PhaseInv, Undone, AllVote, hparts, hvotes]
    exact ⟨hne hst, hrest⟩
  | aborting | committed =>
    obtain ⟨hst, hrest⟩ := h
    simp only [PhaseInv, Undone, AllVote, AllAck, hparts]
    exact ⟨hsame _ (by simp) hst, hrest⟩

theorem Single.moved (hexec : s'.executions = (s.move i phase).executions)
    (hvotes : ∀ p ∈ s'.tx.votes, p ∈ s'.tx.participants)
    (hphase : PhaseInv env i s'.tx s'.log phase) : Single env i s' := by
  refine ⟨hvotes, ?_, ?_⟩ <;> rw [hexec, lookup_move, if_pos rfl]
  · nofun
  · rintro _ ⟨⟩
    exact hphase

theorem votes_eq_true : env.votes i p = true ↔ env.prepare i p = .vote .commit := by
  rw [Environment.votes, decide_eq_true_eq]

theorem mem_storeVote {outcome : PrepareOutcome} (h : q ∈ (s.storeVote p outcome).tx.votes) :
    q = p ∨ q ∈ s.tx.votes := by
  cases outcome with
  | error => exact Or.inr h
  | vote v => exact (mem_insert _).mp h

/-- At the end of the prepare phase, a rejection has a reason. -/
theorem not_allVote_of_reject (h : PhaseInv env i s.tx s.log (.preparing round))
    (hmem : ∀ p ∈ s.tx.votes, p ∈ s.tx.participants) (hended : round.ended = true)
    (hbad : round.failed = true ∨ ∃ e ∈ s.tx.votes.entries, e.2 ≠ .commit) :
    ¬AllVote env i s.tx := by
  obtain ⟨-, -, -, htracks, hstored⟩ := h
  intro hall
  rcases hbad with hfailed | ⟨⟨p, v⟩, hentry, hne⟩
  · obtain ⟨p, hp, hbad⟩ := (htracks.failed_iff_of_ended hended).mp hfailed
    rw [hall p (mem_keys.mpr hp)] at hbad
    cases hbad
  have hlook : s.tx.votes.lookup p = some v := mem_lookup_iff.mpr hentry
  have hpart := hmem p (GoMap.mem_of_lookup hlook)
  rw [hstored p hpart (not_running_of_ended hended) (hall p hpart)] at hlook
  exact hne (some.inj hlook).symm

section Log

variable {log : List Message} {message : Message}

/-- Another message is none of a kind that the log does not have. -/
theorem forall_notMem_cons {kind : UInt32 → Message} (h : ∀ p, kind p ∉ log)
    (hne : ∀ p, message ≠ kind p) (p : UInt32) : kind p ∉ message :: log := by
  intro hmem
  rcases mem_cons.mp hmem with heq | hmem
  · exact hne p heq.symm
  · exact h p hmem

/-- The reason to abort stays when an abort request is sent. -/
theorem Undone.sendAbort {tx : Transaction} {p : UInt32} (h : Undone env i tx log) :
    Undone env i tx (.abortSent i p :: log) := by
  rcases h with ⟨hnot, hacks⟩ | ⟨hvote, hnack, hacked⟩
  · exact Or.inl ⟨hnot, forall_notMem_cons hacks nofun⟩
  · refine Or.inr ⟨hvote, hnack, fun q => ?_⟩
    simpa using hacked q

end Log

open Single

theorem Single.vote (h : Single env i s) (hlook : s.executions.lookup i = some (.preparing round))
    (hanswer : round.answer p (env.votes i p) = some round') :
    Single env i ((s.move i (.preparing round')).storeVote p (env.prepare i p)) := by
  obtain ⟨hst, hacks, haborts, htracks, hstored⟩ := h.phase _ hlook
  have hpart : p ∈ s.tx.participants := mem_keys.mpr
    (htracks.running_mem p (Or.inr (mem_waiting_of_answer hanswer)))
  refine moved (executions_storeVote ..) ?_ ⟨?_, ?_, ?_, ?_, ?_⟩
  · intro q hq
    rw [participants_storeVote]
    rcases mem_storeVote hq with rfl | hq
    · exact hpart
    · exact h.votes_mem q hq
  · rw [status_storeVote]
    exact hst
  · rw [log_storeVote]
    exact hacks
  · rw [log_storeVote]
    exact haborts
  · rw [participants_storeVote]
    exact htracks.answer hanswer
  intro q hq hstopped hvote
  rw [participants_storeVote] at hq
  by_cases hqp : q = p
  · subst hqp
    rw [votes_eq_true.mp hvote]
    exact lookup_insert _
  have hother (outcome) : ((s.move i (.preparing round')).storeVote p outcome).tx.votes.lookup q =
      s.tx.votes.lookup q := by
    cases outcome with
    | error => rfl
    | vote v => exact lookup_insert_ne hqp
  rw [hother]
  refine hstored q hq (fun hr => hstopped ?_) hvote
  exact (htracks.running_answer hanswer q).mpr ⟨hr, hqp⟩

section

variable (h : Single env i s) (hlook : s.executions.lookup i = some (.committing round))
  (hanswer : round.answer p (env.acks i p) = some round')
include h hlook hanswer

theorem Single.ack (hack : env.acks i p = true) :
    Single env i (s.tell i (.committing round') (.commitAcked i p)) := by
  obtain ⟨hst, haborts, hvote, htracks, hacked⟩ := h.phase _ hlook
  have hmem := mem_waiting_of_answer hanswer
  refine moved rfl h.votes_mem
    ⟨hst, forall_notMem_cons haborts nofun, hvote, htracks.answer hanswer, fun q => ?_⟩
  rw [htracks.running_answer hanswer, log_tell, mem_cons, hacked q]
  by_cases hqp : q = p
  · subst hqp
    have hq : q ∈ s.tx.participants := mem_keys.mpr (htracks.running_mem q (Or.inr hmem))
    simp [hq, hack]
  · simp [hqp]

theorem Single.nack (hack : env.acks i p = false) :
    Single env i (s.move i (.committing round')) := by
  obtain ⟨hst, haborts, hvote, htracks, hacked⟩ := h.phase _ hlook
  refine moved rfl h.votes_mem ⟨hst, haborts, hvote, htracks.answer hanswer, ?_⟩
  intro q
  rw [htracks.running_answer hanswer, log_move, hacked q]
  by_cases hqp : q = p
  · subst hqp
    simp [hack]
  · simp [hqp]

end

theorem Single.sendAbort {unsent : List UInt32} (h : Single env i s)
    (hlook : s.executions.lookup i = some (.aborting unsent)) :
    Single env i (s.tell i (.aborting (unsent.erase p)) (.abortSent i p)) := by
  obtain ⟨hst, hlast, hundone, hsent⟩ := h.phase _ hlook
  refine moved rfl h.votes_mem ⟨hst, ?_, hundone.sendAbort, ?_⟩
  · refine pairwise_cons.mpr ⟨fun _ _ p q heq => ?_, hlast⟩
    cases heq
  intro q hq
  by_cases hqp : q = p
  · subst hqp
    exact Or.inr mem_cons_self
  rcases hsent q hq with hunsent | hlog
  · exact Or.inl ((mem_erase_of_ne hqp).mpr hunsent)
  · exact Or.inr (mem_cons_of_mem _ hlog)

/-- **One step of the execution** keeps its invariant. -/
theorem Single.advance (h : Single env i s) (hlook : s.executions.lookup i = some phase)
    (hadv : Advances env s i phase a s') : Single env i s' := by
  have hinv := h.phase phase hlook
  cases hadv with
  | prepare =>
    have hnone : ∀ message, message ∉ s.log := by
      rw [show s.log = [] from hinv]
      nofun
    exact moved rfl h.votes_mem ⟨nofun, fun _ => hnone _, fun _ => hnone _, .start (keys_nodup _),
      fun p hp hstopped => absurd (Or.inl (AList.mem_keys.mp hp)) hstopped⟩
  | @sendPrepare _ p round round' hsend =>
    obtain ⟨hst, hacks, haborts, htracks, hstored⟩ := hinv
    refine moved rfl h.votes_mem
      ⟨hst, forall_notMem_cons hacks nofun, forall_notMem_cons haborts nofun, htracks.send hsend,
        fun q hq hstopped => ?_⟩
    rw [running_send hsend] at hstopped
    exact hstored q hq hstopped
  | vote hanswer => exact h.vote hlook hanswer
  | reject hended hbad =>
    have hnot := not_allVote_of_reject hinv h.votes_mem hended hbad
    obtain ⟨hst, hacks, haborts, -, -⟩ := hinv
    exact moved rfl h.votes_mem ⟨hst, haborts, Or.inl ⟨hnot, hacks⟩⟩
  | accept hended hgood =>
    obtain ⟨hst, hacks, haborts, htracks, -⟩ := hinv
    exact moved rfl h.votes_mem ⟨hst, hacks, haborts, fun p hp =>
      htracks.forall_good hended hgood p (mem_keys.mp hp)⟩
  | prepared =>
    obtain ⟨-, hacks, haborts, hvote⟩ := hinv
    refine moved rfl h.votes_mem ⟨nofun, haborts, hvote, .start (keys_nodup _), fun p => ?_⟩
    refine iff_of_false (hacks p) ?_
    rintro ⟨hp, hstopped, -⟩
    exact hstopped (Or.inl (mem_keys.mp hp))
  | @sendCommit _ p round round' hsend =>
    obtain ⟨hst, haborts, hvote, htracks, hacked⟩ := hinv
    refine moved rfl h.votes_mem
      ⟨hst, forall_notMem_cons haborts nofun, hvote, htracks.send hsend, fun q => ?_⟩
    rw [running_send hsend, log_tell, mem_cons]
    simpa using hacked q
  | ack hanswer hack => exact h.ack hlook hanswer hack
  | nack hanswer hack => exact h.nack hlook hanswer hack
  | fail hended hbad =>
    obtain ⟨hst, haborts, hvote, htracks, hacked⟩ := hinv
    refine moved rfl h.votes_mem ⟨hst, haborts, Or.inr ⟨hvote, ?_, fun p => ?_⟩⟩
    · obtain ⟨p, hp, hnack⟩ := (htracks.failed_iff_of_ended hended).mp hbad
      exact ⟨p, mem_keys.mpr hp, hnack⟩
    · rw [log_move, hacked p]
      simp [not_running_of_ended hended]
  | commit hended hgood =>
    obtain ⟨-, haborts, hvote, htracks, -⟩ := hinv
    exact moved rfl h.votes_mem ⟨rfl, haborts, hvote, fun p hp =>
      htracks.forall_good hended hgood p (mem_keys.mp hp)⟩
  | abort =>
    obtain ⟨-, haborts, hundone⟩ := hinv
    refine moved rfl h.votes_mem ⟨rfl, ?_, hundone, fun p hp => Or.inl (mem_keys.mp hp)⟩
    refine pairwise_of_forall_mem_list fun later _ earlier hearlier p q _ heq => ?_
    subst heq
    exact haborts q hearlier
  | sendAbort => exact h.sendAbort hlook

/-- An execution has not begun to work on a transaction that is pending. -/
theorem PhaseInv.eq_found {tx : Transaction} (h : PhaseInv env i tx log phase)
    (hpending : tx.status = .pending) : phase = .found := by
  cases phase with
  | found => rfl
  | preparing | voted | committing | failing => exact absurd hpending h.1
  | aborting | committed => cases hpending.symm.trans h.1

/-- While the transaction is pending, no request has been sent. -/
theorem Single.log_eq_nil (h : Single env i s) (hpending : s.tx.status = .pending) :
    s.log = [] := by
  cases hlook : s.executions.lookup i with
  | none => exact h.idle hlook
  | some phase =>
    have hinv := h.phase phase hlook
    obtain rfl := hinv.eq_found hpending
    exact hinv

theorem Single.step (h : Single env i s) (hown : ∀ j ∈ a.execution, j = i)
    (hsteps : Steps env s a s') : Single env i s' := by
  cases hsteps with
  | absent => exact h
  | advance hexec hlook hadv =>
    obtain rfl := hown _ hexec
    exact h.advance hlook hadv
  | @execute j hnew =>
    obtain rfl : j = i := hown j rfl
    refine moved rfl h.votes_mem (h.idle ?_)
    rwa [lookup_eq_none]
  | @add operation route now =>
    obtain ⟨hstatus, hvotes, hparts, hsame⟩ := addOperation_spec s.tx operation route now
    by_cases hpending : s.tx.status = .pending
    · have hlog := h.log_eq_nil hpending
      refine ⟨fun p hp => hparts p (h.votes_mem p (hvotes ▸ hp)), fun _ => hlog, ?_⟩
      intro phase hlook
      obtain rfl := (h.phase phase hlook).eq_found hpending
      exact hlog
    · rw [hsame hpending]
      exact h
  | @cleanup now =>
    obtain ⟨hexec, hlog, hparts, hvotes, hstatus⟩ := s.cleanup_spec now
    refine ⟨?_, ?_, ?_⟩
    · rw [hvotes, hparts]
      exact h.votes_mem
    · rw [hexec, hlog]
      exact h.idle
    rw [hexec, hlog]
    intro phase hlook
    exact (h.phase phase hlook).of_status hparts hvotes (hstatus.imp_right fun h => ⟨h.1, h.2.2⟩)

/-- After the first request the participants stay what they are. -/
theorem Single.participants_eq (h : Single env i s) (hlog : s.log ≠ [])
    (hsteps : Steps env s a s') : s'.log ≠ [] ∧ s'.tx.participants = s.tx.participants := by
  cases hsteps with
  | absent => exact ⟨hlog, rfl⟩
  | execute => exact ⟨hlog, rfl⟩
  | @add operation route now =>
    obtain ⟨-, -, -, hsame⟩ := addOperation_spec s.tx operation route now
    exact ⟨hlog, by rw [hsame fun hpending => hlog (h.log_eq_nil hpending)]⟩
  | @cleanup now =>
    obtain ⟨-, hlog', hparts, -⟩ := s.cleanup_spec now
    exact ⟨hlog' ▸ hlog, hparts⟩
  | advance hexec hlook hadv =>
    cases hadv with
    | vote => exact ⟨by simpa using hlog, by simp⟩
    | sendPrepare | sendCommit | ack | sendAbort => exact ⟨by simp, rfl⟩
    | prepare | reject | accept | prepared | nack | fail | commit | abort => exact ⟨hlog, rfl⟩

/-- The execution has returned and its goroutines are done. -/
def Finished (s : TxState) (i : Nat) : Prop :=
  s.executions.lookup i = some .committed ∨ s.executions.lookup i = some (.aborting [])

/-- **Agreement** at the end of a run: nobody is sent an abort after somebody else has
acknowledged the commit, the transaction is committed exactly if everybody voted for it and
acknowledged it, and the participants are the same from the first request on. -/
structure Agreement (env : Environment) (i : Nat) (states : List TxState) (s : TxState) : Prop where
  noLateAbort : NoLateAbort i s.log
  committed_iff : s.tx.status = .committed ↔ AllVote env i s.tx ∧ AllAck env i s.tx
  participants_eq : ∀ t ∈ states, t.log ≠ [] → t.tx.participants = s.tx.participants

/-- Acknowledgements before the aborts, and of somebody else: a late abort. -/
theorem not_noLateAbort (hlast : AbortsLast i log) (hack : .commitAcked i p ∈ log)
    (habort : .abortSent i q ∈ log) (hne : p ≠ q) : ¬NoLateAbort i log := by
  induction log with
  | nil => cases hack
  | cons message log ih =>
    obtain ⟨hfirst, hlast⟩ := pairwise_cons.mp hlast
    intro hnone
    obtain ⟨hlate, hnone⟩ := pairwise_cons.mp hnone
    rcases mem_cons.mp hack with rfl | hack'
    · have habort' := mem_of_ne_of_mem (by simp) habort
      exact hfirst _ habort' p q rfl rfl
    rcases mem_cons.mp habort with rfl | habort'
    · exact hne (hlate _ hack' q p rfl rfl).symm
    · exact ih hlast hack' habort' hnone

theorem noLateAbort_of_noAcks (h : NoAcks i log) : NoLateAbort i log := by
  refine pairwise_of_forall_mem_list fun later _ earlier hearlier p q _ heq => ?_
  subst heq
  exact absurd hearlier (h q)

theorem noLateAbort_of_noAborts (h : NoAborts i log) : NoLateAbort i log := by
  refine pairwise_of_forall_mem_list fun later hlater earlier _ p q heq => ?_
  subst heq
  exact absurd hlater (h p)

theorem single_of_run {tx : Transaction} {run : List Action}
    (hvotes : ∀ p ∈ tx.votes, p ∈ tx.participants) (hown : ∀ a ∈ run, ∀ j ∈ a.execution, j = i)
    (hrun : exec (step env) (start tx) run = some s) :
    Single env i s ∧ ∀ t ∈ trace (step env) (start tx) run, t.log ≠ [] →
      t.tx.participants = s.tx.participants := by
  suffices h : Single env i s ∧ ∀ t ∈ trace (step env) (start tx) run, t.log ≠ [] →
      s.log ≠ [] ∧ t.tx.participants = s.tx.participants from
    ⟨h.1, fun t ht hlog => (h.2 t ht hlog).2⟩
  have halong : Along (step env) (fun _ a => ∀ j ∈ a.execution, j = i) (start tx) run :=
    .of_forall (fun a ha _ => hown a ha) _
  refine trace_induction
    (P := fun run (s : TxState) => Single env i s ∧ ∀ t ∈ trace (step env) (start tx) run,
      t.log ≠ [] → s.log ≠ [] ∧ t.tx.participants = s.tx.participants)
    ⟨⟨hvotes, fun _ => rfl, fun _ h => by cases h⟩, ?_⟩ ?_ run s halong hrun
  · intro t ht hlog
    obtain rfl : t = start tx := by simpa [trace] using ht
    exact absurd rfl hlog
  rintro pre a t u - hexec ⟨hsingle, hpast⟩ hok hstep
  have hsteps := steps_of_step hstep
  refine ⟨hsingle.step hok hsteps, fun v hv hlog => ?_⟩
  rw [trace_concat hexec hstep, mem_append, mem_singleton] at hv
  rcases hv with hv | rfl
  · obtain ⟨hlog', hparts⟩ := hpast v hv hlog
    obtain ⟨hlog'', hparts'⟩ := hsingle.participants_eq hlog' hsteps
    exact ⟨hlog'', hparts.trans hparts'.symm⟩
  · exact ⟨hlog, rfl⟩

/-- **Two-phase commit agreement.** A run with one execution that has finished, with any
interleaving of its goroutines, of added operations and of cleanups, ends in agreement exactly
if the commit was not partial. -/
theorem agreement_iff {tx : Transaction} {run : List Action}
    (hvotes : ∀ p ∈ tx.votes, p ∈ tx.participants) (hown : ∀ a ∈ run, ∀ j ∈ a.execution, j = i)
    (hrun : exec (step env) (start tx) run = some s) (hdone : s.Finished i) :
    Agreement env i (trace (step env) (start tx) run) s ↔ ¬PartialCommit env i s.tx := by
  obtain ⟨hsingle, hparts⟩ := single_of_run hvotes hown hrun
  rcases hdone with hlook | hlook
  · obtain ⟨hstatus, haborts, hvote, hack⟩ := hsingle.phase _ hlook
    refine iff_of_true ⟨noLateAbort_of_noAborts haborts, ?_, hparts⟩ ?_
    · exact iff_of_true hstatus ⟨hvote, hack⟩
    rintro ⟨-, -, p, hp, hnack⟩
    rw [hack p hp] at hnack
    cases hnack
  obtain ⟨hstatus, hlast, hundone, hsent⟩ := hsingle.phase _ hlook
  have hnot : ¬(AllVote env i s.tx ∧ AllAck env i s.tx) := by
    rintro ⟨hvote, hack⟩
    rcases hundone with ⟨hnot, -⟩ | ⟨-, ⟨p, hp, hnack⟩, -⟩
    · exact hnot hvote
    · rw [hack p hp] at hnack
      cases hnack
  have hcommitted : s.tx.status = .committed ↔ AllVote env i s.tx ∧ AllAck env i s.tx := by
    rw [hstatus]
    exact iff_of_false nofun hnot
  rcases hundone with ⟨hnovote, hacks⟩ | ⟨hvote, ⟨q, hq, hnack⟩, hacked⟩
  · exact iff_of_true ⟨noLateAbort_of_noAcks hacks, hcommitted, hparts⟩ fun h => hnovote h.1
  constructor
  · rintro ⟨hnone, -, -⟩ ⟨-, ⟨p, hp, hack⟩, -⟩
    have hne : p ≠ q := by
      rintro rfl
      rw [hack] at hnack
      cases hnack
    exact not_noLateAbort hlast ((hacked p).mpr ⟨hp, hack⟩)
      ((hsent q hq).resolve_left nofun) hne hnone
  · intro hwhole
    refine ⟨noLateAbort_of_noAcks fun p hp => ?_, hcommitted, hparts⟩
    exact hwhole ⟨hvote, ⟨p, (hacked p).mp hp⟩, ⟨q, hq, hnack⟩⟩

/-! ## Two shards -/

/-- A transaction with one operation on each of two shards. -/
def twoShards : Transaction :=
  let tx := Transaction.beginTransaction "n_0_1" 30000000000 0 0
  let tx := (tx.addOperation ⟨"PUT", "a", 0⟩ (.ok 1) 0).1
  (tx.addOperation ⟨"PUT", "b", 0⟩ (.ok 2) 0).1

/-- Both shards vote to commit; the commit fails for the shards in the list. -/
def failingFor (failing : List UInt32) : Environment :=
  ⟨fun _ _ => .vote .commit, fun _ p => p ∉ failing⟩

/-- An execution up to the answers to its commit requests. -/
def upToAcks (i : Nat) (now : Int) : List Action :=
  [.execute i, .setPreparing i now, .sendPrepare i 1, .sendPrepare i 2, .receiveVote i 2,
    .receiveVote i 1, .checkVotes i, .setPrepared i now, .sendCommit i 1, .receiveAck i 1,
    .sendCommit i 2, .receiveAck i 2, .finishCommit i now]

/-- The state after a run that is possible. -/
def after (env : Environment) (tx : Transaction) (run : List Action)
    (h : (exec (step env) (start tx) run).isSome = true) : TxState :=
  (exec (step env) (start tx) run).get h

theorem agreement_twoShards :
    Agreement (failingFor []) 0 (trace (step (failingFor [])) (start twoShards) (upToAcks 0 0))
      (after (failingFor []) twoShards (upToAcks 0 0) (by decide +kernel)) := by
  have hvotes : ∀ p ∈ twoShards.votes, p ∈ twoShards.participants := nofun
  refine (agreement_iff hvotes (by decide) (some_get _).symm (Or.inl (by decide +kernel))).mpr ?_
  rintro ⟨-, -, p, -, hnack⟩
  cases hnack

/-- Shard 1 acknowledges the commit, that of shard 2 fails: the transaction is aborted, and both
are sent an abort. -/
theorem partial_commit_counterexample : (exec (step (failingFor [2])) (start twoShards)
      (upToAcks 0 0 ++ [.setAborted 0 0, .sendAbort 0 1, .sendAbort 0 2])).map
        (fun s => (s.log.take 5, s.executions.lookup 0, s.tx.status)) =
      some ([.abortSent 0 2, .abortSent 0 1, .commitSent 0 2, .commitAcked 0 1, .commitSent 0 1],
        some (.aborting []), .aborted) ∧
    ¬NoLateAbort 0 [.abortSent 0 2, .abortSent 0 1, .commitSent 0 2, .commitAcked 0 1,
      .commitSent 0 1] := by
  refine ⟨by decide +kernel, fun h => ?_⟩
  have := (pairwise_cons.mp h).1 (.commitAcked 0 1) (by decide) 2 1 rfl rfl
  exact absurd this (by decide)

theorem outcomes_final_twoShards : (trace (step (failingFor [])) (start twoShards)
      (upToAcks 0 0 ++ [.cleanup 40000000000])).Pairwise
      (fun t u => t.tx.status.Terminal → u.tx.status = t.tx.status) :=
  (outcomes_final (by decide +kernel)).1

/-- A second execution turns a committed transaction back to preparing and sends the commits
again; a cleanup times a transaction out while it is being prepared, and the execution then
writes its own status. -/
theorem rewritten_outcome_counterexample :
    ((exec (step (failingFor [])) (start twoShards) (upToAcks 0 0)).map (·.tx.status) =
        some .committed ∧
      (exec (step (failingFor [])) (start twoShards)
        (upToAcks 0 0 ++ [.execute 1, .setPreparing 1 1])).map (·.tx.status) = some .preparing ∧
      (exec (step (failingFor [])) (start twoShards) (upToAcks 0 0 ++ upToAcks 1 1)).map
        (fun s => s.log.filter fun m => m ∈ [.commitSent 0 1, .commitSent 1 1]) =
          some [.commitSent 1 1, .commitSent 0 1]) ∧
    (exec (step (failingFor [])) (start twoShards)
      ((upToAcks 0 0).take 7 ++ [.cleanup 40000000000])).map (·.tx.status) = some .timeout ∧
    (exec (step (failingFor [])) (start twoShards)
      ((upToAcks 0 0).take 7 ++ [.cleanup 40000000000, .setPrepared 0 40000000000])).map
        (·.tx.status) = some .prepared := by
  decide +kernel

end TxState

end DistributedKV.Partitioning
