import Mathlib.Tactic.Linarith
import Mathlib.Tactic.Ring
import DistributedKV.Lib.Lts

/-!
# Token buckets

A bucket has a level and a time stamp, the time up to which it has been refilled. A draw at some
time refills it and takes something out (`Draw`): what is taken and what is left are together at
most what was there and what the rate gives for the time between the two stamps. The level may be
negative, and a refill may give less than the rate allows (rounding, a cap).

The bound on a window is proved by a potential: from a given bucket on, no more can be taken until
a time than the level plus what the rate gives until then, and at the first draw in the window
that is at most the burst plus the rate times the length of the window.
-/

namespace DistributedKV.TokenBucket

open Lts

variable {K : Type*} [CommRing K] [LinearOrder K] [IsStrictOrderedRing K]

/-- A bucket: its level, and the time up to which it is refilled. -/
structure Bucket (K : Type*) where
  level : K
  stamp : K

/-- One draw at `time` that takes `taken` out. -/
structure Draw (rate : K) (before : Bucket K) (time taken : K) (after : Bucket K) : Prop where
  stamp_eq : after.stamp = max before.stamp time
  level_le : max after.level 0 + taken ≤
    max before.level 0 + rate * (after.stamp - before.stamp)

section System

variable {σ : Type*} {α : Type*} (step : σ → α → Option σ) (bucket : σ → Option (Bucket K))
  (mine : α → Prop) (time : α → K) (taken : σ → α → K)

/-- What is taken by the actions of a run whose time is in the window. -/
def total (lo hi : K) (s : σ) : List α → K
  | [] => 0
  | a :: as =>
    (if lo ≤ time a ∧ time a ≤ hi then taken s a else 0) +
      ((step s a).map fun t => total lo hi t as).getD 0

/-- The action takes nothing and leaves the bucket alone, or it is a draw from a bucket of at
most the burst, or from any if there is none yet. -/
def Metered (rate burst : K) (s : σ) (a : α) : Prop :=
  (taken s a = 0 ∧ ∀ t ∈ step s a, bucket t = bucket s) ∨
  mine a ∧ 0 ≤ taken s a ∧ ∃ t before after, step s a = some t ∧
    (∀ b ∈ bucket s, b = before) ∧ bucket t = some after ∧
    Draw rate before (time a) (taken s a) after ∧
    (0 < taken s a → max after.level 0 + taken s a ≤ burst)

/-- The draws come in time order. -/
def InOrder (as : List α) : Prop := as.Pairwise fun a b => mine a → mine b → time a ≤ time b

variable {step bucket mine time taken} {rate burst lo hi : K} {s : σ} {as : List α}

omit [IsStrictOrderedRing K] in
/-- Nothing is taken in a window by draws that all come after it. -/
theorem total_eq_zero (hmetered : Along step (Metered step bucket mine time taken rate burst) s as)
    (hlate : ∀ a ∈ as, mine a → hi < time a) : total step time taken lo hi s as = 0 := by
  induction as generalizing s with
  | nil => rfl
  | cons a as ih =>
    have hnow : (if lo ≤ time a ∧ time a ≤ hi then taken s a else 0) = 0 := by
      rcases hmetered.1 with ⟨hzero, -⟩ | ⟨hmine, -⟩
      · rw [hzero, ite_self]
      · exact if_neg fun hin => not_le.mpr (hlate a List.mem_cons_self hmine) hin.2
    rw [total, hnow, zero_add]
    cases hs : step s a with
    | none => rfl
    | some t =>
      exact ih (hmetered.2 t hs) fun b hb => hlate b (List.mem_cons_of_mem _ hb)

/-- **The potential.** What is taken until `hi` is at most the level and what the rate gives
until then. -/
theorem total_le_potential (lo hi : K) (hrate : 0 ≤ rate) {b : Bucket K} (hb : bucket s = some b)
    (hmetered : Along step (Metered step bucket mine time taken rate burst) s as)
    (horder : InOrder mine time as) :
    total step time taken lo hi s as ≤ max b.level 0 + rate * (max b.stamp hi - b.stamp) := by
  have hpos : ∀ b : Bucket K, 0 ≤ max b.level 0 + rate * (max b.stamp hi - b.stamp) := fun b =>
    add_nonneg (le_max_right _ _) (mul_nonneg hrate (sub_nonneg.mpr (le_max_left _ _)))
  induction as generalizing s b with
  | nil => exact hpos b
  | cons a as ih =>
    obtain ⟨hfirst, horder⟩ := List.pairwise_cons.mp horder
    rw [total]
    rcases hmetered.1 with
      ⟨hzero, hsame⟩ | ⟨hmine, htaken, t, before, after, hs, heq, hafter, hdraw, -⟩
    · rw [hzero, ite_self, zero_add]
      cases hs : step s a with
      | none => exact hpos b
      | some t => exact ih ((hsame t hs).trans hb) (hmetered.2 t hs) horder
    obtain rfl : b = before := heq b hb
    rw [hs]
    by_cases hlate : hi < time a
    · -- nothing of this action or of a later one is in the window
      rw [if_neg fun hin => not_le.mpr hlate hin.2, zero_add]
      refine (total_eq_zero (hmetered.2 t hs) fun c hc hmine' => ?_).trans_le (hpos b)
      exact hlate.trans_le (hfirst c hc hmine hmine')
    have hrest := ih hafter (hmetered.2 t hs) horder
    have hstamp : max after.stamp hi = max b.stamp hi := by
      rw [hdraw.stamp_eq, max_assoc, max_eq_right (not_lt.mp hlate)]
    have hnow : (if lo ≤ time a ∧ time a ≤ hi then taken s a else 0) ≤ taken s a := by
      split
      · exact le_rfl
      · exact htaken
    calc (if lo ≤ time a ∧ time a ≤ hi then taken s a else 0) + total step time taken lo hi t as
        ≤ taken s a + (max after.level 0 + rate * (max b.stamp hi - after.stamp)) := by
          rw [hstamp] at hrest
          exact add_le_add hnow hrest
      _ ≤ max b.level 0 + rate * (after.stamp - b.stamp) +
          rate * (max b.stamp hi - after.stamp) := by
          have := hdraw.level_le
          linarith
      _ = max b.level 0 + rate * (max b.stamp hi - b.stamp) := by ring

/-- **The window bound.** Along a run that is metered with one rate and one burst, what is taken
in a window is at most the burst and what the rate gives for its length. -/
theorem total_le (hrate : 0 ≤ rate) (hburst : 0 ≤ burst) (hwindow : lo ≤ hi)
    (hmetered : Along step (Metered step bucket mine time taken rate burst) s as)
    (horder : InOrder mine time as) :
    total step time taken lo hi s as ≤ burst + rate * (hi - lo) := by
  have hpos : 0 ≤ burst + rate * (hi - lo) :=
    add_nonneg hburst (mul_nonneg hrate (sub_nonneg.mpr hwindow))
  induction as generalizing s with
  | nil => exact hpos
  | cons a as ih =>
    obtain ⟨-, horder'⟩ := List.pairwise_cons.mp horder
    rw [total]
    by_cases hnow : (if lo ≤ time a ∧ time a ≤ hi then taken s a else 0) = 0
    · rw [hnow, zero_add]
      cases hs : step s a with
      | none => exact hpos
      | some t => exact ih (hmetered.2 t hs) horder'
    -- the first draw in the window: from here on the potential is the bound
    obtain ⟨hin, hne⟩ : (lo ≤ time a ∧ time a ≤ hi) ∧ taken s a ≠ 0 := by
      by_contra hcon
      refine hnow ?_
      split
      · next hin => exact not_not.mp fun hne => hcon ⟨hin, hne⟩
      · rfl
    rcases hmetered.1 with ⟨hzero, -⟩ | ⟨-, htaken, t, before, after, hs, -, hafter, hdraw, hcap⟩
    · exact absurd hzero hne
    have hrest := total_le_potential lo hi hrate hafter (hmetered.2 t hs) horder'
    have hlevel := hcap (lt_of_le_of_ne htaken (Ne.symm hne))
    have hspan : max after.stamp hi - after.stamp ≤ hi - lo := by
      have hstamp : time a ≤ after.stamp := hdraw.stamp_eq ▸ le_max_right _ _
      rcases max_cases after.stamp hi with ⟨hmax, -⟩ | ⟨hmax, -⟩ <;> rw [hmax]
      · rw [sub_self]
        exact sub_nonneg.mpr hwindow
      · exact sub_le_sub_left (hin.1.trans hstamp) hi
    rw [if_pos hin, hs]
    calc taken s a + total step time taken lo hi t as
        ≤ taken s a + (max after.level 0 + rate * (max after.stamp hi - after.stamp)) :=
          add_le_add_right hrest _
      _ ≤ burst + rate * (hi - lo) := by
          have := mul_le_mul_of_nonneg_left hspan hrate
          linarith

end System

end DistributedKV.TokenBucket
