import Mathlib.Data.List.Basic

/-!
# Bits in an array of words

A set of numbers below `64 * n` in `n` words of 64 bits. Setting a bit sets no other
one and clears none.
-/

namespace DistributedKV

open List

/-- An array of 64-bit words. -/
abbrev BitWords := List (BitVec 64)

namespace BitWords

/-- The bit `i` of its word. -/
def mask (i : Nat) : BitVec 64 := 1#64 <<< (i % 64)

/-- Set the bit `i`; nothing happens beyond the end. -/
def set (words : BitWords) (i : Nat) : BitWords := words.modify (i / 64) (· ||| mask i)

/-- Whether the bit `i` is set; beyond the end it is not. -/
def get (words : BitWords) (i : Nat) : Bool := words[i / 64]?.any fun word => word &&& mask i != 0

variable {words : BitWords} {i j : Nat}

@[simp] theorem length_set : (words.set i).length = words.length := length_modify ..

theorem getElem?_set : (words.set i)[j]? =
    if i / 64 = j then words[j]?.map (· ||| mask i) else words[j]? := by
  rw [set, getElem?_modify]
  split <;> simp

theorem and_mask_ne_zero {word : BitVec 64} :
    (word &&& mask i != 0) = word.getLsbD (i % 64) := by
  have hlt : i % 64 < 64 := Nat.mod_lt i (by decide)
  rw [mask, ← BitVec.twoPow_eq, BitVec.and_twoPow]
  have hne : BitVec.twoPow 64 (i % 64) ≠ 0#64 := by
    intro hzero
    have hbit := congrArg (fun bits => bits.getLsbD (i % 64)) hzero
    simp [hlt] at hbit
  cases word.getLsbD (i % 64) <;> simp [hne]

theorem get_set_self (h : i / 64 < words.length) : (words.set i).get i = true := by
  have hlt : i % 64 < 64 := Nat.mod_lt i (by decide)
  rw [get, getElem?_set, if_pos rfl, getElem?_eq_getElem h, Option.map_some, Option.any_some,
    and_mask_ne_zero, BitVec.getLsbD_or, mask, ← BitVec.twoPow_eq]
  simp [hlt]

theorem get_set_of_get (h : words.get j = true) : (words.set i).get j = true := by
  rw [get, getElem?_set]
  rw [get] at h
  split
  · cases hword : words[j / 64]? with
    | none => rw [hword] at h; cases h
    | some word =>
      rw [hword, Option.any_some, and_mask_ne_zero] at h
      rw [Option.map_some, Option.any_some, and_mask_ne_zero, BitVec.getLsbD_or, h, Bool.true_or]
  · exact h

/-- Setting bits one after the other sets them all and clears none. -/
theorem get_foldl_set {is : List Nat} (his : ∀ i ∈ is, i / 64 < words.length)
    (h : words.get j = true ∨ j ∈ is) : (is.foldl set words).get j = true := by
  induction is generalizing words with
  | nil => simpa using h
  | cons i is ih =>
    refine ih (fun k hk => ?_) ?_
    · rw [length_set]
      exact his k (mem_cons_of_mem i hk)
    rcases h with h | h
    · exact .inl (get_set_of_get h)
    rcases mem_cons.mp h with rfl | h
    · exact .inl (get_set_self (his j mem_cons_self))
    · exact .inr h

@[simp] theorem length_foldl_set {is : List Nat} : (is.foldl set words).length = words.length := by
  induction is generalizing words with
  | nil => rfl
  | cons i is ih => rw [foldl_cons, ih, length_set]

end BitWords

end DistributedKV
