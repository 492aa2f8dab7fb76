import Mathlib.Data.Finset.Card

/-!
# Recursion without a guard

A function that calls itself is given by its body: `body f a` is what it returns at `a` if `f`
answers the calls it makes, and nothing if one of them does not return. `nested body n` lets the
calls go `n` deep. When the function calls itself only at the elements of a finite set, a call that
does not return within as many levels as the set has elements, and one more, does not return at
all. So that many levels compute the function, endless calls included.
-/

namespace DistributedKV.Recursion

universe u v

variable {α : Type u} {β : Type v}

/-- Where `f` returns, `g` returns the same. -/
def Below (f g : α → Option β) : Prop := ∀ a b, f a = some b → g a = some b

/-- A body that returns more if the calls return more, and nothing different. -/
def Continuing (body : (α → Option β) → α → Option β) : Prop :=
  ∀ f g, Below f g → Below (body f) (body g)

/-- The body without a call outside a set. -/
def CallsWithin (body : (α → Option β) → α → Option β) (s : Finset α) : Prop :=
  ∀ a ∉ s, ∃ b, ∀ f, body f a = some b

/-- The function with calls at most so deep. -/
def nested (body : (α → Option β) → α → Option β) : Nat → α → Option β
  | 0 => fun _ => none
  | n + 1 => body (nested body n)

variable {body : (α → Option β) → α → Option β} {s : Finset α} {n m : Nat}

theorem nested_below_succ (hbody : Continuing body) (n : Nat) :
    Below (nested body n) (nested body (n + 1)) := by
  induction n with
  | zero =>
    intro a b h
    cases h
  | succ n ih => exact hbody _ _ ih

/-- A level that adds nothing is the last one that matters. -/
theorem nested_eq_of_succ (h : nested body (n + 1) = nested body n) (hm : n ≤ m) :
    nested body m = nested body n := by
  induction hm with
  | refl => rfl
  | step _ ih =>
    rw [nested, ih]
    exact h

section Levels

open Classical in
/-- The elements at which calls so deep do not return. -/
noncomputable def stuck (body : (α → Option β) → α → Option β) (s : Finset α) (n : Nat) :
    Finset α :=
  s.filter fun a => nested body n a = none

/-- Each level adds nothing or lets the calls return at one more element. -/
theorem card_stuck_lt (hbody : Continuing body) (hwithin : CallsWithin body s) (n : Nat) :
    nested body (n + 2) = nested body (n + 1) ∨
      (stuck body s (n + 2)).card < (stuck body s (n + 1)).card := by
  by_cases h : ∃ a ∈ stuck body s (n + 1), a ∉ stuck body s (n + 2)
  · obtain ⟨a, hmem, hnot⟩ := h
    refine Or.inr (Finset.card_lt_card ⟨fun x hx => ?_, fun hsub => hnot (hsub hmem)⟩)
    obtain ⟨hs, hnone⟩ := Finset.mem_filter.mp hx
    refine Finset.mem_filter.mpr ⟨hs, ?_⟩
    cases hlevel : nested body (n + 1) x with
    | none => rfl
    | some b => exact absurd (hnone.symm.trans (nested_below_succ hbody _ x b hlevel)) nofun
  refine Or.inl (funext fun a => ?_)
  cases hlevel : nested body (n + 1) a with
  | some b => exact nested_below_succ hbody _ a b hlevel
  | none =>
    have hs : a ∈ s := by
      by_contra hs
      obtain ⟨b, hb⟩ := hwithin a hs
      exact absurd (hlevel.symm.trans (hb _)) nofun
    by_contra hsome
    exact h ⟨a, Finset.mem_filter.mpr ⟨hs, hlevel⟩,
      fun hmem => hsome (Finset.mem_filter.mp hmem).2⟩

end Levels

section

variable (hbody : Continuing body) (hwithin : CallsWithin body s)
include hbody hwithin

theorem exists_last : ∃ n ≤ s.card, nested body (n + 2) = nested body (n + 1) := by
  by_contra hnot
  have hnext : ∀ n ≤ s.card, nested body (n + 2) ≠ nested body (n + 1) :=
    fun n hn h => hnot ⟨n, hn, h⟩
  -- each level takes at least one element off those that are stuck
  have hcard : ∀ n ≤ s.card + 1, (stuck body s (n + 1)).card + n ≤ s.card := by
    intro n
    induction n with
    | zero => exact fun _ => Finset.card_le_card (Finset.filter_subset _ _)
    | succ n ih =>
      intro hn
      have hlt := (card_stuck_lt hbody hwithin n).resolve_left (hnext n (by omega))
      show (stuck body s (n + 2)).card + (n + 1) ≤ s.card
      omega
  have hend := hcard (s.card + 1) le_rfl
  omega

/-- **Enough levels.** More levels than the set has elements, and one more, add nothing. -/
theorem nested_eq (h : s.card + 1 ≤ n) : nested body n = nested body (s.card + 1) := by
  obtain ⟨last, hlast, heq⟩ := exists_last hbody hwithin
  calc nested body n = nested body (last + 1) := nested_eq_of_succ heq (by omega)
    _ = nested body (s.card + 1) := (nested_eq_of_succ heq (by omega)).symm

/-- With so many levels the function satisfies its equation. -/
theorem body_nested : body (nested body (s.card + 1)) = nested body (s.card + 1) :=
  nested_eq hbody hwithin (Nat.le_succ _)

end

end DistributedKV.Recursion
