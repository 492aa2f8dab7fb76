import Mathlib.Data.Nat.Find
import DistributedKV.Consensus.NodeSpec

/-!
# What an append request does to a follower's log

For every node with a contiguous log and every disk: an accepted request leaves a contiguous log
that agrees in term with everything the request names (`Absorbed`), and a log that already agrees
with all that is not changed (`mergedLog_of_agrees`), so repeated and older requests do nothing.
-/

namespace DistributedKV.Consensus

open Lib List Option

/-! ## What a request names -/

/-- The `i`-th entry of the request has the index at which it is stored. -/
def AppendRequest.Contiguous (req : AppendRequest) : Prop :=
  ∀ (i : Nat) e, req.entries[i]? = some e → e.index = req.prevLogIndex + i + 1

/-- The request names term `t` at index `n`: before its entries, or as the term of one of them.
-/
def AppendRequest.Names (req : AppendRequest) (n t : Int) : Prop :=
  (0 < n ∧ n = req.prevLogIndex ∧ t = req.prevLogTerm) ∨
  ∃ (i : Nat) (e : LogEntry), req.entries[i]? = some e ∧ n = req.prevLogIndex + i + 1 ∧ t = e.term

/-- The log has an entry of term `t` at index `n`. -/
def HoldsTerm (log : List LogEntry) (n t : Int) : Prop :=
  ∃ e, entryAt log n = some e ∧ e.term = t

/-- The log agrees in term with everything the request names. -/
def Agrees (log : List LogEntry) (req : AppendRequest) : Prop :=
  ∀ n t, req.Names n t → HoldsTerm log n t

variable {log log' : List LogEntry} {req : AppendRequest} {p i : Nat} {rn : RaftNode}

theorem HoldsTerm.mono {n t : Int} (h : HoldsTerm log n t) (hsub : log <+: log') :
    HoldsTerm log' n t := by
  obtain ⟨e, he, hterm⟩ := h
  refine ⟨e, ?_, hterm⟩
  unfold entryAt at he ⊢
  split_ifs at he ⊢
  exact prefix_getElem? hsub he

/-- The `i`-th entry of the request meets an entry of another term in the log. -/
def Conflict (log : List LogEntry) (req : AppendRequest) (i : Nat) : Prop :=
  ∃ old ∈ entryAt log (req.prevLogIndex + i + 1), ∃ new ∈ req.entries[i]?, old.term ≠ new.term

instance (log : List LogEntry) (req : AppendRequest) (i : Nat) :
    Decidable (Conflict log req i) := by
  unfold Conflict
  infer_instance

/-- What an accepted request makes of the log. -/
structure Absorbed (log : List LogEntry) (req : AppendRequest) (log' : List LogEntry) : Prop where
  contiguous : Numbered log'
  agrees : Agrees log' req
  /-- nothing is cut off if and only if nothing conflicts -/
  kept : log <+: log' ↔ ∀ i, ¬Conflict log req i
  /-- without a conflict, the entries past the end are added -/
  extended : (∀ i, ¬Conflict log req i) →
    log' = log ++ req.entries.drop (log.length - req.prevLogIndex).toNat
  /-- from the first conflict on, the entries are the request's -/
  replaced : ∀ i, Conflict log req i → (∀ j < i, ¬Conflict log req j) →
    log' = log.take (req.prevLogIndex + i).toNat ++ req.entries.drop i

/-! ## Reading positions behind `PrevLogIndex` -/

theorem entryAt_behind (log : List LogEntry) (hp : req.prevLogIndex = p) (i : Nat) :
    entryAt log (req.prevLogIndex + i + 1) = (log.drop p)[i]? := by
  rw [hp, show (p : Int) + i + 1 = ((p + i : Nat) : Int) + 1 by omega, entryAt_succ,
    getElem?_drop]

theorem conflict_iff (hp : req.prevLogIndex = p) :
    Conflict log req i ↔ ∃ old new, (log.drop p)[i]? = some old ∧
      req.entries[i]? = some new ∧ old.term ≠ new.term := by
  rw [Conflict, entryAt_behind log hp]
  simp only [Option.mem_def, exists_and_left]

theorem term_eq_of_not_conflict (hp : req.prevLogIndex = p) (h : ¬Conflict log req i)
    {old new : LogEntry} (hold : (log.drop p)[i]? = some old) (hnew : req.entries[i]? = some new) :
    old.term = new.term := by
  by_contra hne
  exact h ((conflict_iff hp).mpr ⟨old, new, hold, hnew, hne⟩)

/-! ## The merged log -/

theorem mergedLog_of_no_conflict (hp : req.prevLogIndex = p) (hle : p ≤ log.length)
    (hnone : ∀ i, ¬Conflict log req i) (h : mergedLog log req = some log') :
    log' = log ++ req.entries.drop (log.length - p) := by
  rw [mergedLog_eq hp hle, merge_of_agree fun k x y hx hy =>
    term_eq_of_not_conflict hp (hnone k) hx hy] at h
  rw [← some.inj h, length_drop, ← append_assoc, take_append_drop]

theorem mergedLog_of_conflict (hp : req.prevLogIndex = p) (hle : p ≤ log.length)
    (hconf : Conflict log req i) (hfirst : ∀ j < i, ¬Conflict log req j)
    (h : mergedLog log req = some log') : log' = log.take (p + i) ++ req.entries.drop i := by
  obtain ⟨old, new, hold, hnew, hne⟩ := (conflict_iff hp).mp hconf
  have hmerge : merge LogEntry.term (log.drop p) req.entries =
      (log.drop p).take i ++ req.entries.drop i :=
    merge_of_disagree hold hnew hne fun j hj a b ha hb =>
      term_eq_of_not_conflict hp (hfirst j hj) ha hb
  rw [mergedLog_eq hp hle, hmerge] at h
  rw [← some.inj h, ← append_assoc, ← take_add]

/-- **A request that says nothing new** to a log that agrees with all it names leaves it as it
is. -/
theorem mergedLog_of_agrees (hag : Agrees log req) : mergedLog log req = some log := by
  by_cases hnil : req.entries = []
  · rw [mergedLog, if_pos hnil]
  obtain ⟨e₀, es, hes⟩ := exists_cons_of_ne_nil hnil
  -- the first entry is held, so the request does not start before the log
  have hpos : 0 ≤ req.prevLogIndex := by
    obtain ⟨old, hold, -⟩ := hag _ _ (Or.inr ⟨0, e₀, by rw [hes]; rfl, rfl, rfl⟩)
    by_contra hneg
    rw [entryAt, if_neg (by omega)] at hold
    simp at hold
  obtain ⟨p, hp⟩ : ∃ p : Nat, req.prevLogIndex = p := ⟨req.prevLogIndex.toNat, by omega⟩
  have hentry : ∀ (i : Nat) e, req.entries[i]? = some e →
      ∃ old, (log.drop p)[i]? = some old ∧ old.term = e.term := by
    intro i e he
    obtain ⟨old, hold, hterm⟩ := hag _ _ (Or.inr ⟨i, e, he, rfl, rfl⟩)
    rw [entryAt_behind log hp] at hold
    exact ⟨old, hold, hterm⟩
  have hnone : ∀ i, ¬Conflict log req i := by
    intro i hconf
    obtain ⟨old, new, hold, hnew, hne⟩ := (conflict_iff hp).mp hconf
    obtain ⟨old', hold', hterm⟩ := hentry i new hnew
    rw [hold] at hold'
    exact hne (some.inj hold' ▸ hterm)
  -- the last entry is held, so nothing is past the end
  have hcover : req.entries.length ≤ log.length - p := by
    by_contra hlt
    have hi : log.length - p < req.entries.length := by omega
    obtain ⟨old, hold, -⟩ := hentry _ _ (getElem?_eq_getElem hi)
    have := (List.getElem?_eq_some_iff.mp hold).1
    rw [length_drop] at this
    omega
  have hle : p ≤ log.length := by
    have := length_pos_iff.mpr hnil
    omega
  have hmerged := @mergedLog_eq log _ _ hp hle
  rw [hmerged, mergedLog_of_no_conflict hp hle hnone hmerged, drop_of_length_le hcover,
    append_nil]

section

variable (hp : req.prevLogIndex = p) (hle : p ≤ log.length) (h : mergedLog log req = some log')
include hp hle h

theorem mergedLog_numbered (hnum : Numbered log) (hreq : req.Contiguous) :
    Numbered log' := by
  rw [mergedLog_eq hp hle] at h
  intro k e hk
  rw [← some.inj h] at hk
  by_cases hkp : k < p
  · rw [getElem?_append_left (by rw [length_take]; omega),
      getElem?_take_of_lt hkp] at hk
    exact hnum k e hk
  have hlen : (log.take p).length = p := by rw [length_take]; omega
  rw [getElem?_append_right (by omega), hlen] at hk
  rcases getElem?_merge hk with hold | hnew
  · rw [getElem?_drop, show p + (k - p) = k by omega] at hold
    exact hnum k e hold
  · rw [hreq _ e hnew, hp]
    omega

/-- Behind `PrevLogIndex`, the merged log agrees with the request. -/
theorem mergedLog_holds {e : LogEntry} (he : req.entries[i]? = some e) :
    HoldsTerm log' (req.prevLogIndex + i + 1) e.term := by
  rw [mergedLog_eq hp hle] at h
  have hlen : (log.take p).length = p := by rw [length_take]; omega
  obtain ⟨e', he', hterm⟩ := @key_getElem?_merge _ _ LogEntry.term _ (log.drop p) _ _ _ he
  refine ⟨e', ?_, hterm⟩
  rw [entryAt_behind _ hp, ← some.inj h, drop_append_of_le_length (by omega),
    drop_of_length_le (by omega), nil_append]
  exact he'

theorem mergedLog_take : log'.take p = log.take p := by
  rw [mergedLog_eq hp hle] at h
  rw [← some.inj h, take_append_of_le_length (by rw [length_take]; omega),
    take_take, Nat.min_self]

end

section

variable (hnum : Numbered rn.log) (hp : req.prevLogIndex = p) (hmis : rn.prevMismatch req = false)
include hnum hp hmis

/-- A request that passes the check names a term before its entries that the
log has. -/
theorem prevTerm_held (hpos : 0 < p) :
    p ≤ rn.log.length ∧ HoldsTerm rn.log req.prevLogIndex req.prevLogTerm := by
  rcases RaftNode.prevMismatch_eq_false hnum hp hmis with rfl | ⟨k, e, rfl, he, hterm⟩
  · omega
  · refine ⟨(List.getElem?_eq_some_iff.mp he).1, e, ?_, hterm⟩
    rw [hp, Nat.cast_add, Nat.cast_one, entryAt_succ, he]

theorem prev_le_length : p ≤ rn.log.length := by
  rcases Nat.eq_zero_or_pos p with rfl | hpos
  · exact Nat.zero_le _
  · exact (prevTerm_held hnum hp hmis hpos).1

theorem mergedLog_agrees (h : mergedLog rn.log req = some log') : Agrees log' req := by
  have hle := prev_le_length hnum hp hmis
  rintro n t (⟨hpos, rfl, rfl⟩ | ⟨i, e, he, rfl, rfl⟩)
  · obtain ⟨e, he, hterm⟩ := (prevTerm_held hnum hp hmis (by omega)).2
    refine ⟨e, ?_, hterm⟩
    rw [← he]
    refine entryAt_congr ?_
    rw [hp, Int.toNat_natCast]
    exact mergedLog_take hp hle h
  · exact mergedLog_holds hp hle h he

end

theorem mergedLog_kept (hp : req.prevLogIndex = p) (hle : p ≤ log.length)
    (h : mergedLog log req = some log') : log <+: log' ↔ ∀ i, ¬Conflict log req i := by
  constructor
  · -- the old entry would still be there, but the new log has the request's term
    intro hsub i hconf
    obtain ⟨old, new, hold, hnew, hne⟩ := (conflict_iff hp).mp hconf
    obtain ⟨e, he, hterm⟩ := mergedLog_holds hp hle h hnew
    rw [entryAt_behind _ hp, getElem?_drop] at he
    rw [getElem?_drop] at hold
    rw [prefix_getElem? hsub hold] at he
    cases he
    exact hne hterm
  · intro hnone
    rw [mergedLog_of_no_conflict hp hle hnone h]
    exact prefix_append _ _

/-- **A request that passes the check is absorbed.** -/
theorem mergedLog_absorbed (hnum : Numbered rn.log) (hreq : req.Contiguous)
    (hmis : rn.prevMismatch req = false) (h : mergedLog rn.log req = some log') :
    Absorbed rn.log req log' := by
  by_cases hneg : req.prevLogIndex < 0
  · -- only a request without entries gets through
    have hnil : req.entries = [] := by
      by_contra hne
      simp [mergedLog_negative hneg hne] at h
    have hnone : ∀ i, ¬Conflict rn.log req i := by
      rintro i ⟨old, -, new, hnew, -⟩
      simp [hnil] at hnew
    obtain rfl : rn.log = log' := by simpa [mergedLog, hnil] using h
    refine ⟨hnum, ?_, iff_of_true (prefix_refl _) hnone, fun _ => by simp [hnil],
      fun i hconf => absurd hconf (hnone i)⟩
    rintro n t (⟨hpos, rfl, -⟩ | ⟨i, e, he, -⟩)
    · omega
    · simp [hnil] at he
  · obtain ⟨p, hp⟩ : ∃ p : Nat, req.prevLogIndex = p := ⟨req.prevLogIndex.toNat, by omega⟩
    have hle := prev_le_length hnum hp hmis
    refine ⟨mergedLog_numbered hp hle h hnum hreq, mergedLog_agrees hnum hp hmis h,
      mergedLog_kept hp hle h, ?_, ?_⟩
    · intro hnone
      rw [mergedLog_of_no_conflict hp hle hnone h, hp]
      congr 2
      omega
    · intro i hconf hfirst
      rw [mergedLog_of_conflict hp hle hconf hfirst h, hp]
      congr 2

/-! ## Accepted and rejected requests -/

namespace RaftNode

variable {rn leader : RaftNode} {req : AppendRequest}

section

variable {disk : Disk} {r : AppendResponse} (hr : (rn.handleAppendEntries disk req).2 = some r)
include hr

theorem rejected_log (hfail : r.success = false) :
    (rn.handleAppendEntries disk req).1.log = rn.log := by
  rw [handleAppendEntries_eq] at hr ⊢
  split_ifs at hr ⊢ with hstale hprev
  · rfl
  · rfl
  cases hlog : mergedLog rn.log req with
  | none => rfl
  | some log =>
    rw [hlog] at hr
    cases hr
    exact absurd hfail.symm Bool.false_ne_true

/-- A request that gets a positive answer passed the checks and its entries were
taken in. -/
theorem accepted_cases (hok : r.success = true) :
    rn.currentTerm ≤ req.term ∧ rn.prevMismatch req = false ∧
      ∃ log, mergedLog rn.log req = some log ∧
        (rn.handleAppendEntries disk req).1 = rn.accept disk req log := by
  rw [handleAppendEntries_eq] at hr ⊢
  split_ifs at hr ⊢ with hstale hprev
  iterate 2
    cases hr
    exact absurd hok Bool.false_ne_true
  · cases hlog : mergedLog rn.log req with
    | none => simp [hlog] at hr
    | some log => exact ⟨by omega, by simpa using hprev, log, rfl, rfl⟩

end

/-- A request that says nothing new leaves the log alone, whatever becomes of it. -/
theorem log_of_agrees (disk : Disk) (hag : Agrees rn.log req) :
    (rn.handleAppendEntries disk req).1.log = rn.log := by
  rw [handleAppendEntries_eq]
  split_ifs
  · rfl
  · rfl
  · rw [mergedLog_of_agrees hag]
    rfl

/-- A leader's request names the terms of its log from just before the entries on, nothing else.
-/
theorem names_buildAppendRequest {p : Nat} (hp : p ≤ leader.log.length)
    (hreq : leader.buildAppendRequest ((p : Int) + 1) = some req) (n t : Int) :
    req.Names n t ↔ 0 < n ∧ p ≤ n ∧ HoldsTerm leader.log n t := by
  rw [buildAppendRequest_eq leader hp] at hreq
  cases hreq
  constructor
  · rintro (⟨hpos, rfl, rfl⟩ | ⟨i, e, he, rfl, rfl⟩)
    · obtain ⟨k, rfl⟩ : ∃ k, p = k + 1 := ⟨p - 1, by dsimp only at hpos; omega⟩
      refine ⟨hpos, le_refl _, leader.log.get ⟨k, hp⟩, ?_, ?_⟩ <;>
        rw [Nat.cast_add, Nat.cast_one, entryAt_succ, getElem?_eq_getElem hp] <;> rfl
    refine ⟨by dsimp only; omega, by dsimp only; omega, e, ?_, rfl⟩
    rw [entryAt_behind leader.log rfl]
    exact he
  rintro ⟨hpos, hle, e, he, rfl⟩
  rcases eq_or_lt_of_le hle with rfl | hlt
  · refine Or.inl ⟨hpos, rfl, ?_⟩
    rw [he]
    rfl
  refine Or.inr ⟨(n - p - 1).toNat, e, ?_, by dsimp only; omega, rfl⟩
  have hn : n = (((p + (n - p - 1).toNat : Nat)) : Int) + 1 := by omega
  rw [hn, entryAt_succ] at he
  rw [getElem?_drop]
  exact he

/-- An older request of the same leader names nothing that the follower does not hold already.
-/
theorem agrees_older {earlier : RaftNode} {older : AppendRequest} {log' : List LogEntry}
    {p q : Nat} (hnum : Numbered rn.log) (hmis : rn.prevMismatch req = false)
    (h : mergedLog rn.log req = some log') (hp : p ≤ leader.log.length)
    (hreq : leader.buildAppendRequest ((p : Int) + 1) = some req) (hq : q ≤ earlier.log.length)
    (holder : earlier.buildAppendRequest ((q : Int) + 1) = some older)
    (hgrow : earlier.log <+: leader.log)
    (hside : p ≤ q ∨ Matching LogEntry.term rn.log leader.log) : Agrees log' older := by
  have hprev : req.prevLogIndex = p := by
    rw [buildAppendRequest_eq leader hp] at hreq
    rw [← some.inj hreq]
  have hag := mergedLog_agrees hnum hprev hmis h
  intro n t hnames
  obtain ⟨hpos, hqn, hearlier⟩ := (names_buildAppendRequest hq holder n t).mp hnames
  have hlead : HoldsTerm leader.log n t := hearlier.mono hgrow
  by_cases hpn : (p : Int) ≤ n
  · exact hag n t ((names_buildAppendRequest hp hreq n t).mpr ⟨hpos, hpn, hlead⟩)
  -- before the accepted request: the entry at `PrevLogIndex` ties the two logs
  have hmatch := hside.resolve_left (by omega)
  obtain ⟨k, rfl⟩ : ∃ k, p = k + 1 := ⟨p - 1, by omega⟩
  obtain ⟨hle, e, he, heterm⟩ := prevTerm_held hnum hprev hmis (by omega)
  obtain ⟨-, -, e', he', heterm'⟩ := (names_buildAppendRequest hp hreq _ _).mp
    (Or.inl ⟨by omega, rfl, rfl⟩)
  rw [hprev, Nat.cast_add, Nat.cast_one, entryAt_succ] at he he'
  have hcommon := hmatch k e e' he he' (heterm.trans heterm'.symm)
  rw [← mergedLog_take hprev hle h] at hcommon
  obtain ⟨x, hx, hxterm⟩ := hlead
  refine ⟨x, ?_, hxterm⟩
  rw [← hx]
  refine entryAt_congr ?_
  have hmin : min n.toNat (k + 1) = n.toNat := by omega
  rw [← hmin, ← take_take, ← take_take, hcommon]

/-- **The effect of an append request on the log.** -/
theorem handleAppendEntries_log (disk : Disk) (rn : RaftNode) (req : AppendRequest)
    (hnum : Numbered rn.log) (hreq : req.Contiguous) :
    let out := rn.handleAppendEntries disk req
    (0 ≤ req.prevLogIndex → ∃ r, out.2 = some r) ∧ ∀ r, out.2 = some r →
      (r.success = false → out.1.log = rn.log) ∧ (r.success = true → Absorbed rn.log req out.1.log ∧
        (∀ disk', (out.1.handleAppendEntries disk' req).1.log = out.1.log) ∧
        ∀ disk' (leader earlier : RaftNode) (older : AppendRequest) (p q : Nat),
          p ≤ leader.log.length → leader.buildAppendRequest ((p : Int) + 1) = some req →
          q ≤ earlier.log.length → earlier.buildAppendRequest ((q : Int) + 1) = some older →
          earlier.log <+: leader.log → (p ≤ q ∨ Matching LogEntry.term rn.log leader.log) →
          (out.1.handleAppendEntries disk' older).1.log = out.1.log) := by
  intro out
  refine ⟨fun hprev => ?_, fun r hr => ⟨?_, ?_⟩⟩
  · obtain ⟨p, hp⟩ : ∃ p : Nat, req.prevLogIndex = p := ⟨req.prevLogIndex.toNat, by omega⟩
    show ∃ r, (rn.handleAppendEntries disk req).2 = some r
    rw [handleAppendEntries_eq]
    split_ifs with hstale hmis
    · exact ⟨_, rfl⟩
    · exact ⟨_, rfl⟩
    · rw [mergedLog_eq hp (prev_le_length hnum hp (by simpa using hmis))]
      exact ⟨_, rfl⟩
  · exact fun hfail => rejected_log hr hfail
  intro hok
  obtain ⟨-, hmis, log, hlog, hout⟩ := accepted_cases hr hok
  have hnew : out.1.log = log := by
    rw [show out.1 = rn.accept disk req log from hout]
    rfl
  rw [hnew]
  have habs := mergedLog_absorbed hnum hreq hmis hlog
  refine ⟨habs, ?_, ?_⟩
  · intro disk'
    rw [← hnew]
    exact log_of_agrees disk' (hnew ▸ habs.agrees)
  intro disk' leader earlier older p q hp hbuild hq holder hgrow hside
  rw [← hnew]
  refine log_of_agrees disk' ?_
  rw [hnew]
  exact agrees_older hnum hmis hlog hp hbuild hq holder hgrow hside

theorem handleAppendEntries_log_conflict :
    let rn : RaftNode := { newRaftNode "n1" .none with log := [⟨1, 1, "put", [], 0⟩] }
    let req : AppendRequest := ⟨2, "n2", 0, 0, [⟨1, 2, "put", [], 0⟩], 0⟩
    Conflict rn.log req 0 ∧ Absorbed rn.log req [⟨1, 2, "put", [], 0⟩] := by
  intro rn req
  have hnum : Numbered rn.log := numbered_nil.concat rfl
  have hreq : req.Contiguous := by
    intro i e he
    obtain ⟨hi, rfl⟩ := List.getElem?_eq_some_iff.mp he
    obtain rfl : i = 0 := Nat.lt_one_iff.mp hi
    rfl
  refine ⟨by decide, ?_⟩
  exact (((handleAppendEntries_log .healthy rn req hnum hreq).2 _ rfl).2 rfl).1

end RaftNode

end DistributedKV.Consensus
