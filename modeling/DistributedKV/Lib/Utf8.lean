import Mathlib.Algebra.Order.BigOperators.Group.List
import Mathlib.Algebra.Order.Group.Nat

/-!
# UTF-8

Strings as lists of bytes, and what happens to one that is not UTF-8 on its way through a text
format: an encoder that copies character by character writes the replacement character U+FFFD for
every byte at which no character starts (`encoding/json` of Go does this). Such a copy is the string
itself exactly when the string is UTF-8. What a decoder puts together from characters is UTF-8.
-/

namespace DistributedKV.Utf8

open List

/-- The bytes that continue a character. -/
def isTail (b : UInt8) : Bool := 0x80 ≤ b && b ≤ 0xBF

/-- The first two bytes of a character of three bytes. -/
def isThree (a b : UInt8) : Bool :=
  a == 0xE0 && 0xA0 ≤ b && b ≤ 0xBF ||
  0xE1 ≤ a && a ≤ 0xEC && isTail b ||
  a == 0xED && 0x80 ≤ b && b ≤ 0x9F ||
  0xEE ≤ a && a ≤ 0xEF && isTail b

/-- The first two bytes of a character of four bytes. -/
def isFour (a b : UInt8) : Bool :=
  a == 0xF0 && 0x90 ≤ b && b ≤ 0xBF ||
  0xF1 ≤ a && a ≤ 0xF3 && isTail b ||
  a == 0xF4 && 0x80 ≤ b && b ≤ 0x8F

/-- How many of the given bytes belong to the character that starts with `a`; `none` if none
does. -/
def tailLength (a : UInt8) : List UInt8 → Option Nat
  | [] => if a < 0x80 then some 0 else none
  | [b] =>
    if a < 0x80 then some 0
    else if 0xC2 ≤ a && a ≤ 0xDF && isTail b then some 1
    else none
  | [b, c] =>
    if a < 0x80 then some 0
    else if 0xC2 ≤ a && a ≤ 0xDF && isTail b then some 1
    else if isThree a b && isTail c then some 2
    else none
  | b :: c :: d :: _ =>
    if a < 0x80 then some 0
    else if 0xC2 ≤ a && a ≤ 0xDF && isTail b then some 1
    else if isThree a b && isTail c then some 2
    else if isFour a b && isTail c && isTail d then some 3
    else none

/-- Whether a string is UTF-8 after its first `skip` bytes. -/
def validFrom : (skip : Nat) → List UInt8 → Bool
  | _, [] => true
  | skip + 1, _ :: s => validFrom skip s
  | 0, a :: s =>
    match tailLength a s with
    | some n => validFrom n s
    | none => false

/-- A string is UTF-8. -/
def Valid (s : List UInt8) : Prop := validFrom 0 s = true

instance (s : List UInt8) : Decidable (Valid s) :=
  inferInstanceAs (Decidable (validFrom 0 s = true))

/-- The strings that a text format can carry. -/
abbrev Text := {s : List UInt8 // Valid s}

/-- U+FFFD. -/
def replacement : List UInt8 := [0xEF, 0xBF, 0xBD]

/-- The copy of a string whose first `skip` bytes belong to a character that is being copied. -/
def repairFrom : (skip : Nat) → List UInt8 → List UInt8
  | _, [] => []
  | skip + 1, a :: s => a :: repairFrom skip s
  | 0, a :: s =>
    match tailLength a s with
    | some n => a :: repairFrom n s
    | none => replacement ++ repairFrom 0 s

/-- The copy of a string with every byte that is not part of a character replaced. -/
def repair (s : List UInt8) : List UInt8 := repairFrom 0 s

/-- The code point of a character with the given first byte and further bytes. -/
def codePoint (a : UInt8) (tail : List UInt8) : Nat :=
  let lead := match tail.length with
    | 0 => 0
    | 1 => 0xC0
    | 2 => 0xE0
    | _ => 0xF0
  tail.foldl (fun c b => c * 64 + (b.toNat - 0x80)) (a.toNat - lead)

/-- The code points of a string after its first `skip` bytes. -/
def runesFrom : (skip : Nat) → List UInt8 → List Nat
  | _, [] => []
  | skip + 1, _ :: s => runesFrom skip s
  | 0, a :: s =>
    match tailLength a s with
    | some n => codePoint a (s.take n) :: runesFrom n s
    | none => 0xFFFD :: runesFrom 0 s

/-- The code points that a loop over a string visits. -/
def runes (s : List UInt8) : List Nat := runesFrom 0 s

-- `aé`, a byte at which no character starts, and `€`
example : runes [0x61, 0xC3, 0xA9, 0xFF, 0xE2, 0x82, 0xAC] = [0x61, 0xE9, 0xFFFD, 0x20AC] := by
  decide

/-- A byte that is replaced makes the copy longer. -/
theorem length_le_repairFrom (skip : Nat) (s : List UInt8) :
    s.length ≤ (repairFrom skip s).length ∧
      (validFrom skip s = false → s.length < (repairFrom skip s).length) := by
  induction s generalizing skip with
  | nil => exact ⟨Nat.zero_le _, fun h => by simp [validFrom] at h⟩
  | cons a s ih =>
    cases skip with
    | succ skip => simpa [repairFrom, validFrom] using ih skip
    | zero =>
      unfold repairFrom validFrom
      cases tailLength a s with
      | some n => simpa using ih n
      | none =>
        have := (ih 0).1
        simp only [replacement, length_cons, length_append, length_nil]
        omega

variable {skip k : Nat} {s : List UInt8} {b a : UInt8}

theorem repairFrom_eq_self (h : validFrom skip s = true) : repairFrom skip s = s := by
  induction s generalizing skip with
  | nil => cases skip <;> rfl
  | cons a s ih =>
    cases skip with
    | succ skip => simpa [repairFrom] using ih (by simpa [validFrom] using h)
    | zero =>
      unfold validFrom at h
      unfold repairFrom
      cases htail : tailLength a s with
      | some n =>
        rw [htail] at h
        simpa using ih h
      | none => simp [htail] at h

theorem Valid.repair_eq (h : Valid s) : repair s = s := repairFrom_eq_self h

/-- The copy is the string only if the string is UTF-8: otherwise it is longer. -/
theorem repair_eq_iff : repair s = s ↔ Valid s := by
  refine ⟨fun h => ?_, Valid.repair_eq⟩
  by_contra hinvalid
  have hlt := (length_le_repairFrom 0 s).2 (Bool.eq_false_iff.mpr hinvalid)
  rw [show repairFrom 0 s = s from h] at hlt
  exact Nat.lt_irrefl _ hlt

/-! ## Characters and what follows them -/

section Lookahead

variable {a b c : UInt8} {n : Nat} {s : List UInt8}

theorem tailLength_ascii (h : a < 0x80) (s : List UInt8) : tailLength a s = some 0 := by
  match s with
  | [] | [_] | [_, _] | _ :: _ :: _ :: _ => exact if_pos h

theorem tailLength_two (h : ¬a < 0x80) (htwo : (0xC2 ≤ a && a ≤ 0xDF && isTail b) = true)
    (r : List UInt8) : tailLength a (b :: r) = some 1 := by
  match r with
  | [] | [_] | _ :: _ :: _ => simp [tailLength, h, htwo]

theorem tailLength_three (h : ¬a < 0x80) (htwo : ¬(0xC2 ≤ a && a ≤ 0xDF && isTail b) = true)
    (hthree : (isThree a b && isTail c) = true) (r : List UInt8) :
    tailLength a (b :: c :: r) = some 2 := by
  match r with
  | [] | _ :: _ => simp [tailLength, h, htwo, hthree]

theorem tailLength_four {d : UInt8} (h : ¬a < 0x80)
    (htwo : ¬(0xC2 ≤ a && a ≤ 0xDF && isTail b) = true) (hthree : ¬(isThree a b && isTail c) = true)
    (hfour : (isFour a b && isTail c && isTail d) = true) (r : List UInt8) :
    tailLength a (b :: c :: d :: r) = some 3 := by
  simp [tailLength, h, htwo, hthree, hfour]

theorem tailLength_le (h : tailLength a s = some n) : n ≤ s.length := by
  match s with
  | [] | [_] | [_, _] | _ :: _ :: _ :: _ =>
    simp only [tailLength] at h
    split_ifs at h <;> simp_all <;> omega

theorem ascii_of_tailLength (h : tailLength a s = some 0) : a < 0x80 := by
  match s with
  | [] | [_] | [_, _] | _ :: _ :: _ :: _ =>
    simp only [tailLength] at h
    split_ifs at h with hascii
    · exact hascii
    all_goals cases h

/-- Whether a character starts at `a` depends on the character only, not on what follows. -/
theorem tailLength_take_append (h : tailLength a s = some n) (r : List UInt8) :
    tailLength a (s.take n ++ r) = some n := by
  match s with
  | [] =>
    simp only [tailLength] at h
    split_ifs at h with hascii
    cases h
    exact tailLength_ascii hascii _
  | [b] =>
    simp only [tailLength] at h
    split_ifs at h with hascii htwo <;> obtain rfl := Option.some.inj h
    · exact tailLength_ascii hascii _
    · exact tailLength_two hascii htwo r
  | [b, c] =>
    simp only [tailLength] at h
    split_ifs at h with hascii htwo hthree <;> obtain rfl := Option.some.inj h
    · exact tailLength_ascii hascii _
    · exact tailLength_two hascii htwo r
    · exact tailLength_three hascii htwo hthree r
  | b :: c :: d :: s =>
    simp only [tailLength] at h
    split_ifs at h with hascii htwo hthree hfour <;> obtain rfl := Option.some.inj h
    · exact tailLength_ascii hascii _
    · exact tailLength_two hascii htwo r
    · exact tailLength_three hascii htwo hthree r
    · exact tailLength_four hascii htwo hthree hfour r

theorem validFrom_of_length_le {skip : Nat} (h : s.length ≤ skip) : validFrom skip s = true := by
  induction s generalizing skip with
  | nil => cases skip <;> rfl
  | cons a s ih =>
    cases skip with
    | zero => simp at h
    | succ skip => exact ih (by simpa using h)

theorem valid_char (h : tailLength a s = some n) : Valid (a :: s.take n) := by
  have hchar : tailLength a (s.take n) = some n := by
    simpa using tailLength_take_append h []
  simp only [Valid, validFrom, hchar]
  exact validFrom_of_length_le (by rw [length_take]; omega)

theorem validFrom_append {skip : Nat} (h : validFrom skip s = true) (hskip : skip ≤ s.length)
    (t : List UInt8) : validFrom skip (s ++ t) = validFrom 0 t := by
  induction s generalizing skip with
  | nil =>
    obtain rfl : skip = 0 := by simpa using hskip
    rfl
  | cons a s ih =>
    cases skip with
    | succ skip => exact ih h (by simpa using hskip)
    | zero =>
      cases htail : tailLength a s with
      | none => simp [validFrom, htail] at h
      | some n =>
        have hlonger : tailLength a (s ++ t) = some n := by
          rw [← take_append_drop n s, append_assoc]
          exact tailLength_take_append htail _
        simp only [validFrom, htail] at h
        simp only [cons_append, validFrom, hlonger]
        exact ih h (tailLength_le htail)

theorem Valid.append {t : List UInt8} (hs : Valid s) (ht : Valid t) : Valid (s ++ t) :=
  (validFrom_append hs (Nat.zero_le _) t).trans ht

theorem repairFrom_eq (skip : Nat) (s : List UInt8) :
    repairFrom skip s = s.take skip ++ repair (s.drop skip) := by
  induction s generalizing skip with
  | nil => cases skip <;> rfl
  | cons a s ih =>
    cases skip with
    | zero => rfl
    | succ skip => exact congrArg (a :: ·) (ih skip)

theorem repair_cons_of_char (h : tailLength a s = some n) :
    repair (a :: s) = a :: (s.take n ++ repair (s.drop n)) := by
  rw [← repairFrom_eq]
  simp only [repair, repairFrom, h]

theorem repair_cons_of_none (h : tailLength a s = none) :
    repair (a :: s) = replacement ++ repair s := by
  simp only [repair, repairFrom, h]

end Lookahead

/-! ## Code points -/

/-- The bytes of a code point, or of the replacement character for a number that is none. -/
def encodeRune (c : Nat) : List UInt8 :=
  if c < 0x80 then [.ofNat c]
  else if c < 0x800 then [.ofNat (0xC0 + c / 64), .ofNat (0x80 + c % 64)]
  else if 0xD800 ≤ c ∧ c ≤ 0xDFFF ∨ 0x10FFFF < c then replacement
  else if c < 0x10000 then
    [.ofNat (0xE0 + c / 4096), .ofNat (0x80 + c / 64 % 64), .ofNat (0x80 + c % 64)]
  else
    [.ofNat (0xF0 + c / 262144), .ofNat (0x80 + c / 4096 % 64), .ofNat (0x80 + c / 64 % 64),
      .ofNat (0x80 + c % 64)]

theorem isTail_iff : isTail b = true ↔ 0x80 ≤ b.toNat ∧ b.toNat ≤ 0xBF := by
  simp [isTail, UInt8.le_iff_toNat_le]

theorem isThree_iff : isThree a b = true ↔ a.toNat = 0xE0 ∧ 0xA0 ≤ b.toNat ∧ b.toNat ≤ 0xBF ∨
      0xE1 ≤ a.toNat ∧ a.toNat ≤ 0xEC ∧ 0x80 ≤ b.toNat ∧ b.toNat ≤ 0xBF ∨
      a.toNat = 0xED ∧ 0x80 ≤ b.toNat ∧ b.toNat ≤ 0x9F ∨
      0xEE ≤ a.toNat ∧ a.toNat ≤ 0xEF ∧ 0x80 ≤ b.toNat ∧ b.toNat ≤ 0xBF := by
  simp only [isThree, isTail, Bool.or_eq_true, Bool.and_eq_true, beq_iff_eq, decide_eq_true_eq,
    UInt8.le_iff_toNat_le, ← UInt8.toNat_inj, UInt8.reduceToNat, and_assoc, or_assoc]

theorem isFour_iff : isFour a b = true ↔ a.toNat = 0xF0 ∧ 0x90 ≤ b.toNat ∧ b.toNat ≤ 0xBF ∨
      0xF1 ≤ a.toNat ∧ a.toNat ≤ 0xF3 ∧ 0x80 ≤ b.toNat ∧ b.toNat ≤ 0xBF ∨
      a.toNat = 0xF4 ∧ 0x80 ≤ b.toNat ∧ b.toNat ≤ 0x8F := by
  simp only [isFour, isTail, Bool.or_eq_true, Bool.and_eq_true, beq_iff_eq, decide_eq_true_eq,
    UInt8.le_iff_toNat_le, ← UInt8.toNat_inj, UInt8.reduceToNat, and_assoc, or_assoc]

/-- The bytes behind the first of a character are not ASCII. -/
theorem not_ascii_of_mem_tail {n : Nat} (h : tailLength a s = some n) (hb : b ∈ s.take n) :
    ¬b < 0x80 := by
  have hnat : 0x80 ≤ b.toNat → ¬b < 0x80 := by
    intro hle hlt
    have : b.toNat < 0x80 := UInt8.lt_iff_toNat_lt.mp hlt
    omega
  match s with
  | [] => simp at hb
  | [_] | [_, _] | _ :: _ :: _ :: _ =>
    simp only [tailLength] at h
    split_ifs at h <;> obtain rfl := Option.some.inj h <;>
      simp_all only [Bool.and_eq_true, isTail_iff, isThree_iff, isFour_iff, take_succ_cons,
        take_zero, mem_cons, not_mem_nil, or_false] <;>
      grind

theorem toNat_ofNat (h : k < 256) : (UInt8.ofNat k).toNat = k :=
  UInt8.toNat_ofNat_of_lt' h

theorem isTail_ofNat (h : k < 64) : isTail (.ofNat (0x80 + k)) = true := by
  rw [isTail_iff, toNat_ofNat (by omega)]
  omega

theorem ofNat_lt_iff (h : k < 256) : UInt8.ofNat k < 0x80 ↔ k < 0x80 := by
  rw [UInt8.lt_iff_toNat_lt, toNat_ofNat h]
  rfl

theorem isLead_iff (h : k < 256) :
    (0xC2 ≤ UInt8.ofNat k && UInt8.ofNat k ≤ 0xDF) = true ↔ 0xC2 ≤ k ∧ k ≤ 0xDF := by
  rw [Bool.and_eq_true, decide_eq_true_eq, decide_eq_true_eq, UInt8.le_iff_toNat_le,
    UInt8.le_iff_toNat_le, toNat_ofNat h]
  rfl

theorem valid_encodeRune (c : Nat) : Valid (encodeRune c) := by
  unfold encodeRune
  split_ifs with hone htwo hnone hthree
  · exact valid_char (tailLength_ascii ((ofNat_lt_iff (by omega)).mpr hone) [])
  · refine valid_char (tailLength_two ?_ ?_ [])
    · rw [ofNat_lt_iff (by omega)]
      omega
    · rw [Bool.and_eq_true, isLead_iff (by omega)]
      exact ⟨by omega, isTail_ofNat (by omega)⟩
  · decide
  · refine valid_char (tailLength_three ?_ ?_ ?_ [])
    · rw [ofNat_lt_iff (by omega)]
      omega
    · rw [Bool.and_eq_true, isLead_iff (by omega)]
      omega
    · rw [Bool.and_eq_true, isThree_iff, toNat_ofNat (by omega), toNat_ofNat (by omega)]
      exact ⟨by omega, isTail_ofNat (by omega)⟩
  refine valid_char (tailLength_four ?_ ?_ ?_ ?_ [])
  · rw [ofNat_lt_iff (by omega)]
    omega
  · rw [Bool.and_eq_true, isLead_iff (by omega)]
    omega
  · rw [Bool.and_eq_true, isThree_iff, toNat_ofNat (by omega), toNat_ofNat (by omega)]
    omega
  rw [Bool.and_eq_true, Bool.and_eq_true, isFour_iff, toNat_ofNat (by omega),
    toNat_ofNat (by omega)]
  exact ⟨⟨by omega, isTail_ofNat (by omega)⟩, isTail_ofNat (by omega)⟩

/-- Copying a collection of strings gives the same collection only if all of them are UTF-8. -/
theorem valid_of_perm_map_repair {l : List (List UInt8)} (h : (l.map repair).Perm l) :
    ∀ s ∈ l, Valid s := by
  intro s hs
  by_contra hinvalid
  have hlt : (l.map List.length).sum < (l.map fun s => (repair s).length).sum :=
    sum_lt_sum _ _ (fun s _ => (length_le_repairFrom 0 s).1)
      ⟨s, hs, (length_le_repairFrom 0 s).2 (Bool.eq_false_iff.mpr hinvalid)⟩
  have heq := (h.map List.length).sum_eq
  rw [map_map] at heq
  exact absurd heq hlt.ne'

end DistributedKV.Utf8
