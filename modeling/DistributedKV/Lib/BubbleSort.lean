import Mathlib.Data.List.Sort

/-!
# Bubble sort

The two nested loops that compare neighbours and exchange them when the first is the smaller
one, so that the greatest come to the front. An element is only exchanged for a greater one,
so elements with the same key keep their order (`bubbleSort_stable`).
-/

namespace DistributedKV

open List

universe u v

variable {α : Type u} {β : Type v} [LinearOrder β] (key : α → β)

/-- The inner loop: so many comparisons of neighbours, from the front. -/
def bubblePass : Nat → List α → List α
  | n + 1, x :: y :: l =>
    if key x < key y then y :: bubblePass n (x :: l) else x :: bubblePass n (y :: l)
  | _, l => l

/-- The outer loop, with the number of comparisons that the next round makes. -/
def bubbleRounds : Nat → List α → List α
  | 0, l => l
  | n + 1, l => bubbleRounds n (bubblePass key (n + 1) l)

def bubbleSort (l : List α) : List α := bubbleRounds key (l.length - 1) l

/-- The greatest keys first, and elements with the same key in the order they had. -/
structure StableSort (l result : List α) : Prop where
  perm : result.Perm l
  sorted : result.Pairwise fun x y => key y ≤ key x
  stable : ∀ b, (result.filter fun x => key x = b) = l.filter fun x => key x = b

theorem bubblePass_filter (n : Nat) (l : List α) (b : β) :
    ((bubblePass key n l).filter fun x => key x = b) = l.filter fun x => key x = b := by
  fun_induction bubblePass key n l with
  | case1 n x y l hlt ih =>
    -- the two that are exchanged have different keys
    by_cases hx : key x = b
    · simp [ih, hx, (hx ▸ hlt).ne']
    · simp [filter_cons, ih, hx]
  | case2 n x y l hle ih => simp [filter_cons, ih]
  | case3 => rfl

/-- A round over the front part of a list puts a least element of it at its end. -/
theorem bubblePass_append {n : Nat} {l : List α} (hl : l.length = n + 1) (rest : List α) :
    ∃ front least, bubblePass key n (l ++ rest) = front ++ least :: rest ∧
      (front ++ [least]).Perm l ∧ ∀ x ∈ l, key least ≤ key x := by
  induction n generalizing l with
  | zero =>
    obtain ⟨x, rfl⟩ := length_eq_one_iff.mp hl
    exact ⟨[], x, by simp [bubblePass], .rfl, by simp⟩
  | succ n ih =>
    obtain ⟨x, y, l, rfl⟩ : ∃ x y l', l = x :: y :: l' := by
      match l, hl with
      | x :: y :: l, _ => exact ⟨x, y, l, rfl⟩
    have hlen : l.length = n := by simpa using hl
    rw [cons_append, cons_append, bubblePass]
    split
    · next hlt =>
      obtain ⟨front, least, heq, hperm, hleast⟩ := ih (l := x :: l) (by simp [hlen])
      refine ⟨y :: front, least, congrArg (y :: ·) heq, (hperm.cons y).trans (.swap ..), ?_⟩
      rw [forall_mem_cons] at hleast
      exact forall_mem_cons.mpr ⟨hleast.1, forall_mem_cons.mpr ⟨hleast.1.trans hlt.le, hleast.2⟩⟩
    · next hle =>
      obtain ⟨front, least, heq, hperm, hleast⟩ := ih (l := y :: l) (by simp [hlen])
      refine ⟨x :: front, least, congrArg (x :: ·) heq, hperm.cons x, ?_⟩
      exact forall_mem_cons.mpr ⟨(hleast y mem_cons_self).trans (not_lt.mp hle), hleast⟩

theorem bubbleRounds_append {n : Nat} {l : List α} (hl : l.length = n + 1) (rest : List α) :
    ∃ result, bubbleRounds key n (l ++ rest) = result ++ rest ∧ result.Perm l ∧
      result.Pairwise fun x y => key y ≤ key x := by
  induction n generalizing l rest with
  | zero =>
    obtain ⟨x, rfl⟩ := length_eq_one_iff.mp hl
    exact ⟨[x], rfl, .rfl, pairwise_singleton _ _⟩
  | succ n ih =>
    obtain ⟨front, least, heq, hperm, hleast⟩ := bubblePass_append key hl rest
    have hfront : front.length = n + 1 := by simpa [hl] using hperm.length_eq
    obtain ⟨result, hresult, hperm', hsorted⟩ := ih hfront (least :: rest)
    refine ⟨result ++ [least], ?_, (hperm'.append_right _).trans hperm, ?_⟩
    · rw [bubbleRounds, heq, hresult, append_assoc]
      rfl
    refine pairwise_append.mpr ⟨hsorted, pairwise_singleton _ _, fun x hx y hy => ?_⟩
    rw [mem_singleton.mp hy]
    exact hleast x (hperm.subset (mem_append_left _ (hperm'.subset hx)))

theorem bubbleRounds_filter (n : Nat) (l : List α) (b : β) :
    ((bubbleRounds key n l).filter fun x => key x = b) = l.filter fun x => key x = b := by
  induction n generalizing l with
  | zero => rfl
  | succ n ih => rw [bubbleRounds, ih, bubblePass_filter]

/-- **Bubble sort is a stable sort.** -/
theorem bubbleSort_stable (l : List α) : StableSort key l (bubbleSort key l) := by
  cases l with
  | nil => exact ⟨.rfl, .nil, fun _ => rfl⟩
  | cons x l =>
    obtain ⟨result, heq, hperm, hsorted⟩ :=
      bubbleRounds_append key (show (x :: l).length = l.length + 1 from rfl) []
    rw [append_nil, append_nil] at heq
    obtain rfl : bubbleSort key (x :: l) = result := heq
    exact ⟨hperm, hsorted, fun b => bubbleRounds_filter key _ _ b⟩

end DistributedKV
