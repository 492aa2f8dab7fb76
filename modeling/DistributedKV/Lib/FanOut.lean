import Mathlib.Data.List.Nodup

/-!
# A request to everybody

A round of requests: one is sent to every member, each is answered some time later, well or not,
and the round is over when all are answered, in any order. `FanOut` is the state of such a round,
which remembers whether some answer was bad; `Tracks` says what it stands for.
-/

namespace DistributedKV

open Option

variable {ι : Type*} [DecidableEq ι]

/-- A round of requests. -/
structure FanOut (ι : Type*) where
  unsent : List ι
  waiting : List ι
  failed : Bool
deriving DecidableEq, Repr

namespace FanOut

variable (round : FanOut ι)

/-- Before the first request. -/
def start (members : List ι) : FanOut ι := ⟨members, [], false⟩

/-- Send the request of a member. -/
def send (i : ι) : Option (FanOut ι) :=
  if i ∈ round.unsent then
    some { round with unsent := round.unsent.erase i, waiting := i :: round.waiting }
  else none

/-- Take the answer of a member. -/
def answer (i : ι) (good : Bool) : Option (FanOut ι) :=
  if i ∈ round.waiting then
    some { round with waiting := round.waiting.erase i, failed := round.failed || !good }
  else none

/-- Every member has answered. -/
def ended : Bool := round.unsent.isEmpty && round.waiting.isEmpty

/-- The member has not answered yet. -/
def Running (i : ι) : Prop := i ∈ round.unsent ∨ i ∈ round.waiting

/-- The state of a round with these members and answers. -/
structure Tracks (members : List ι) (good : ι → Bool) (round : FanOut ι) : Prop where
  nodup : (round.unsent ++ round.waiting).Nodup
  running_mem : ∀ i, round.Running i → i ∈ members
  failed_iff : round.failed = true ↔ ∃ i ∈ members, ¬round.Running i ∧ good i = false

variable {members : List ι} {good : ι → Bool} {round round' : FanOut ι} {i : ι}

omit [DecidableEq ι] in
theorem Tracks.start (hnodup : members.Nodup) : Tracks members good (start members) := by
  refine ⟨by simpa [FanOut.start] using hnodup, ?_, ?_⟩
  · rintro i (h | h)
    · exact h
    · cases h
  constructor
  · intro h
    cases h
  · rintro ⟨i, hi, hnot, -⟩
    exact absurd (Or.inl hi) hnot

theorem running_send (hsend : round.send i = some round') (j : ι) :
    round'.Running j ↔ round.Running j := by
  rw [send] at hsend
  split at hsend
  · next hmem =>
    cases hsend
    by_cases hj : j = i
    · subst hj
      simp [Running, hmem]
    · simp [Running, List.mem_erase_of_ne hj, hj]
  · cases hsend

theorem Tracks.send (h : Tracks members good round) (hsend : round.send i = some round') :
    Tracks members good round' := by
  have hrunning := running_send hsend
  refine ⟨?_, fun j hj => h.running_mem j ((hrunning j).mp hj), ?_⟩
  · rw [FanOut.send] at hsend
    split at hsend
    · next hmem =>
      cases hsend
      refine List.Perm.nodup ?_ h.nodup
      exact ((List.perm_cons_erase hmem).append_right _).trans List.perm_middle.symm
    · cases hsend
  have hfailed : round'.failed = round.failed := by
    rw [FanOut.send] at hsend
    split at hsend
    · exact some.inj hsend ▸ rfl
    · cases hsend
  rw [hfailed, h.failed_iff]
  simp only [hrunning]

/-- After its answer a member is not running any more. -/
theorem Tracks.running_answer (h : Tracks members good round) {b : Bool}
    (hanswer : round.answer i b = some round') (j : ι) :
    round'.Running j ↔ round.Running j ∧ j ≠ i := by
  rw [answer] at hanswer
  split at hanswer
  · next hmem =>
    cases hanswer
    obtain ⟨-, hwaiting, hdisjoint⟩ := List.nodup_append.mp h.nodup
    rw [Running, Running, hwaiting.mem_erase_iff]
    constructor
    · rintro (hj | ⟨hne, hj⟩)
      · exact ⟨Or.inl hj, fun hji => hdisjoint j hj i hmem hji⟩
      · exact ⟨Or.inr hj, hne⟩
    rintro ⟨hj | hj, hne⟩
    · exact Or.inl hj
    · exact Or.inr ⟨hne, hj⟩
  · cases hanswer

theorem mem_waiting_of_answer {b : Bool} (hanswer : round.answer i b = some round') :
    i ∈ round.waiting := by
  rw [answer] at hanswer
  split at hanswer
  · assumption
  · cases hanswer

theorem Tracks.answer (h : Tracks members good round)
    (hanswer : round.answer i (good i) = some round') : Tracks members good round' := by
  have hrunning := h.running_answer hanswer
  have hmem := mem_waiting_of_answer hanswer
  have hnot : ¬round'.Running i := fun hi => ((hrunning i).mp hi).2 rfl
  refine ⟨?_, fun j hj => h.running_mem j ((hrunning j).mp hj).1, ?_⟩
  · rw [FanOut.answer, if_pos hmem] at hanswer
    cases hanswer
    exact h.nodup.sublist (List.erase_sublist.append_left _)
  have hfailed : round'.failed = (round.failed || !good i) := by
    rw [FanOut.answer, if_pos hmem] at hanswer
    exact some.inj hanswer ▸ rfl
  rw [hfailed, Bool.or_eq_true, h.failed_iff, Bool.not_eq_true']
  constructor
  · rintro (⟨j, hj, hstopped, hbad⟩ | hbad)
    · exact ⟨j, hj, fun hr => hstopped ((hrunning j).mp hr).1, hbad⟩
    · exact ⟨i, h.running_mem i (Or.inr hmem), hnot, hbad⟩
  rintro ⟨j, hj, hstopped, hbad⟩
  by_cases hji : j = i
  · exact Or.inr (hji ▸ hbad)
  · exact Or.inl ⟨j, hj, fun hr => hstopped ((hrunning j).mpr ⟨hr, hji⟩), hbad⟩

omit [DecidableEq ι] in
theorem not_running_of_ended (hended : round.ended = true) : ¬round.Running i := by
  rw [ended, Bool.and_eq_true, List.isEmpty_iff, List.isEmpty_iff] at hended
  rw [Running, hended.1, hended.2]
  simp

omit [DecidableEq ι] in
/-- **The end of a round**: it has failed exactly if some member answered badly. -/
theorem Tracks.failed_iff_of_ended (h : Tracks members good round) (hended : round.ended = true) :
    round.failed = true ↔ ∃ i ∈ members, good i = false := by
  rw [h.failed_iff]
  simp only [not_running_of_ended hended, not_false_eq_true, true_and]

omit [DecidableEq ι] in
/-- After a round that has not failed, every member has answered well. -/
theorem Tracks.forall_good (h : Tracks members good round) (hended : round.ended = true)
    (hgood : round.failed = false) : ∀ i ∈ members, good i = true := by
  intro i hi
  by_contra hbad
  have hfailed := (h.failed_iff_of_ended hended).mpr ⟨i, hi, (Bool.not_eq_true _).mp hbad⟩
  rw [hgood] at hfailed
  cases hfailed

end FanOut

end DistributedKV
