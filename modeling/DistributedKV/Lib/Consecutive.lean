import Mathlib.Algebra.Order.Group.Unbundled.Int
import Mathlib.Data.List.Basic

/-!
# Lists numbered without a gap

The elements of a list carry the numbers `n + 1`, `n + 2` and so on (`Consecutive key n l`). On such
lists a filter by number is a `take` or a `drop`.
-/

namespace DistributedKV.Lib

open List

universe u

variable {α : Type u} (key : α → Int)

/-- The keys of the list are `n + 1`, `n + 2`, …, in this order. -/
def Consecutive (n : Int) : List α → Prop
  | [] => True
  | a :: l => key a = n + 1 ∧ Consecutive (n + 1) l

instance decidableConsecutive : ∀ (n : Int) (l : List α), Decidable (Consecutive key n l)
  | _, [] => .isTrue trivial
  | n, a :: l =>
    have := decidableConsecutive (n + 1) l
    inferInstanceAs (Decidable (key a = n + 1 ∧ Consecutive key (n + 1) l))

variable {key} {n : Int} {l l' : List α}

theorem consecutive_append :
    Consecutive key n (l ++ l') ↔ Consecutive key n l ∧ Consecutive key (n + l.length) l' := by
  induction l generalizing n with
  | nil => simp [Consecutive]
  | cons a l ih =>
    have hlen : n + 1 + (l.length : Int) = n + ((a :: l).length : Int) := by
      rw [length_cons]
      omega
    rw [cons_append, Consecutive, Consecutive, ih, hlen, and_assoc]

section

variable (h : Consecutive key n l)
include h

theorem Consecutive.take (k : Nat) : Consecutive key n (l.take k) := by
  rw [← take_append_drop k l] at h
  exact (consecutive_append.mp h).1

theorem Consecutive.drop {k : Nat} (hk : k ≤ l.length) :
    Consecutive key (n + k) (l.drop k) := by
  rw [← take_append_drop k l] at h
  have hdrop := (consecutive_append.mp h).2
  rwa [length_take, min_eq_left hk] at hdrop

theorem Consecutive.getLast? {a : α} (ha : l.getLast? = some a) :
    key a = n + l.length := by
  obtain ⟨init, rfl⟩ := getLast?_eq_some_iff.mp ha
  obtain ⟨hlast, -⟩ := (consecutive_append.mp h).2
  rw [hlast, length_append, length_singleton]
  omega

/-- **The elements below a number** are a first part of the list. -/
theorem Consecutive.filter_lt (i : Int) :
    (l.filter fun a => key a < i) = l.take (i - n - 1).toNat := by
  induction l generalizing n with
  | nil => rw [filter_nil, take_nil]
  | cons a l ih =>
    obtain ⟨ha, hl⟩ := h
    by_cases hlt : key a < i
    · obtain ⟨k, hk⟩ : ∃ k : Nat, (i - n - 1).toNat = k + 1 := ⟨(i - n - 2).toNat, by omega⟩
      have hk' : (i - (n + 1) - 1).toNat = k := by omega
      rw [filter_cons_of_pos (by simpa using hlt), ih hl, hk, hk', take_succ_cons]
    have hzero : (i - n - 1).toNat = 0 := by omega
    rw [filter_cons_of_neg (by simpa using hlt), ih hl, hzero, take_zero]
    -- nothing behind `a` is below `i` either
    have hzero' : (i - (n + 1) - 1).toNat = 0 := by omega
    rw [hzero', take_zero]

/-- **The elements above a number** are what is left behind such a part. -/
theorem Consecutive.filter_gt (i : Int) : (l.filter fun a => key a > i) = l.drop (i - n).toNat := by
  induction l generalizing n with
  | nil => rw [filter_nil, drop_nil]
  | cons a l ih =>
    obtain ⟨ha, hl⟩ := h
    by_cases hgt : key a > i
    · have hzero : (i - n).toNat = 0 := by omega
      have hzero' : (i - (n + 1)).toNat = 0 := by omega
      rw [filter_cons_of_pos (by simpa using hgt), ih hl, hzero, hzero', drop_zero, drop_zero]
    obtain ⟨k, hk⟩ : ∃ k : Nat, (i - n).toNat = k + 1 := ⟨(i - n - 1).toNat, by omega⟩
    have hk' : (i - (n + 1)).toNat = k := by omega
    rw [filter_cons_of_neg (by simpa using hgt), ih hl, hk, hk', drop_succ_cons]

theorem Consecutive.filter_between (i j : Int) :
    (l.filter fun a => key a ≥ i ∧ key a ≤ j) = (l.take (j - n).toNat).drop (i - 1 - n).toNat := by
  have hsplit : (l.filter fun a => key a ≥ i ∧ key a ≤ j) =
      (l.filter fun a => key a < j + 1).filter fun a => key a > i - 1 := by
    rw [filter_filter]
    refine filter_congr fun a _ => ?_
    rw [← Bool.decide_and]
    exact decide_eq_decide.mpr (by omega)
  have hj : j + 1 - n - 1 = j - n := by omega
  rw [hsplit, h.filter_lt, hj, (h.take _).filter_gt]

end

end DistributedKV.Lib
