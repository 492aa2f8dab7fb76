import Mathlib.Data.List.Sort

/-!
# Sorting by exchanges

The two nested loops that compare the element at each position with all later ones and exchange
the two when they are out of order. One round of the outer loop ends with a least element in front.
The sort is not stable, but it leaves a sorted list as it is.
-/

namespace DistributedKV

universe u v

variable {α : Type u} {β : Type v} [LinearOrder β] (key : α → β)

/-- One round of the outer loop: the element that ends in front, and the others. -/
def exchangePass : α → List α → α × List α
  | x, [] => (x, [])
  | x, y :: ys =>
    if key y < key x then
      let (least, rest) := exchangePass y ys
      (least, x :: rest)
    else
      let (least, rest) := exchangePass x ys
      (least, y :: rest)

/-- So many rounds of the outer loop. -/
def exchangeRounds : Nat → List α → List α
  | 0, l => l
  | _, [] => []
  | n + 1, x :: xs =>
    let (least, rest) := exchangePass key x xs
    least :: exchangeRounds n rest

/-- The sort by exchanges. -/
def exchangeSort (l : List α) : List α := exchangeRounds key l.length l

variable {key}

theorem exchangePass_perm (x : α) (ys : List α) :
    ((exchangePass key x ys).1 :: (exchangePass key x ys).2).Perm (x :: ys) := by
  induction ys generalizing x with
  | nil => exact .rfl
  | cons y ys ih =>
    rw [exchangePass]
    split
    · exact (List.Perm.swap _ _ _).trans ((ih y).cons x)
    · exact (List.Perm.swap _ _ _).trans (((ih x).cons y).trans (.swap _ _ _))

/-- The element in front is a least one, and not above the one that was there. -/
theorem exchangePass_le (x : α) (ys : List α) : key (exchangePass key x ys).1 ≤ key x ∧
      ∀ y ∈ (exchangePass key x ys).2, key (exchangePass key x ys).1 ≤ key y := by
  induction ys generalizing x with
  | nil => exact ⟨le_rfl, nofun⟩
  | cons y ys ih =>
    rw [exchangePass]
    split
    · next hlt =>
      obtain ⟨hy, hrest⟩ := ih y
      exact ⟨hy.trans hlt.le, List.forall_mem_cons.mpr ⟨hy.trans hlt.le, hrest⟩⟩
    next hlt =>
      obtain ⟨hx, hrest⟩ := ih x
      exact ⟨hx, List.forall_mem_cons.mpr ⟨hx.trans (not_lt.mp hlt), hrest⟩⟩

/-- Nothing is exchanged for an element that is not above the others. -/
theorem exchangePass_eq {x : α} {ys : List α} (h : ∀ y ∈ ys, key x ≤ key y) :
    exchangePass key x ys = (x, ys) := by
  induction ys with
  | nil => rfl
  | cons y ys ih =>
    rw [List.forall_mem_cons] at h
    rw [exchangePass, if_neg (not_lt.mpr h.1), ih h.2]

theorem exchangeRounds_perm (n : Nat) (l : List α) : (exchangeRounds key n l).Perm l := by
  induction n generalizing l with
  | zero => exact .rfl
  | succ n ih =>
    cases l with
    | nil => exact .rfl
    | cons x xs => exact ((ih _).cons _).trans (exchangePass_perm x xs)

theorem exchangeSort_perm (l : List α) : (exchangeSort key l).Perm l :=
  exchangeRounds_perm l.length l

theorem exchangeRounds_sorted {n : Nat} {l : List α} (h : l.length ≤ n) :
    (exchangeRounds key n l).Pairwise fun x y => key x ≤ key y := by
  induction n generalizing l with
  | zero =>
    rw [List.eq_nil_of_length_eq_zero (Nat.le_zero.mp h)]
    exact .nil
  | succ n ih =>
    cases l with
    | nil => exact .nil
    | cons x xs =>
      -- the rounds that follow only permute what the first one left behind
      have hlength : (exchangePass key x xs).2.length + 1 = xs.length + 1 :=
        (exchangePass_perm x xs).length_eq
      refine .cons (fun y hy => ?_) (ih ?_)
      · exact (exchangePass_le x xs).2 y ((exchangeRounds_perm n _).mem_iff.mp hy)
      · exact Nat.le_of_succ_le_succ (hlength.trans_le h)

/-- **The result is sorted.** -/
theorem exchangeSort_sorted (l : List α) : (exchangeSort key l).Pairwise fun x y => key x ≤ key y :=
  exchangeRounds_sorted le_rfl

theorem exchangeRounds_eq_self {l : List α} (n : Nat)
    (h : l.Pairwise fun x y => key x ≤ key y) : exchangeRounds key n l = l := by
  induction n generalizing l with
  | zero => rfl
  | succ n ih =>
    cases l with
    | nil => rfl
    | cons x xs =>
      obtain ⟨hx, hxs⟩ := List.pairwise_cons.mp h
      rw [exchangeRounds, exchangePass_eq hx]
      exact congrArg (x :: ·) (ih hxs)

end DistributedKV
