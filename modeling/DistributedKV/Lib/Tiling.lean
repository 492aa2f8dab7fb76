import Mathlib.Data.Set.Basic

/-!
# Tilings

A family of sets tiles a space when every point lies in exactly one of them. A
set of the family may be split in two, the second part going to an index that was
empty, and two sets may be merged, which leaves one index empty.
-/

namespace DistributedKV

open Function

universe u v

variable {ι : Type u} {H : Type v} {cell : ι → Set H} {i j : ι}

/-- Every point lies in exactly one cell. -/
def Tiling (cell : ι → Set H) : Prop := ∀ h, ∃ i, h ∈ cell i ∧ ∀ j, h ∈ cell j → j = i

theorem Tiling.eq (ht : Tiling cell) {h : H} (hi : h ∈ cell i) (hj : h ∈ cell j) : i = j := by
  obtain ⟨k, -, hk⟩ := ht h
  exact (hk i hi).trans (hk j hj).symm

variable [DecidableEq ι]

open Function

theorem mem_update_update (hij : i ≠ j) {lower upper : Set H} {k : ι} {h : H} :
    h ∈ update (update cell i lower) j upper k ↔
      k = i ∧ h ∈ lower ∨ k = j ∧ h ∈ upper ∨ k ≠ i ∧ k ≠ j ∧ h ∈ cell k := by
  by_cases hkj : k = j
  · subst hkj
    simp [Ne.symm hij]
  by_cases hki : k = i
  · subst hki
    simp [hkj]
  · simp [hki, hkj]

theorem Tiling.split (ht : Tiling cell) (hij : i ≠ j) (hempty : cell j = ∅) {lower upper : Set H}
    (hcell : ∀ h, h ∈ cell i ↔ h ∈ lower ∨ h ∈ upper) (hdisj : ∀ h, h ∈ lower → h ∉ upper) :
    Tiling (update (update cell i lower) j upper) := by
  intro h
  obtain ⟨k, hk, hunique⟩ := ht h
  have hkj : k ≠ j := by
    rintro rfl
    rw [hempty] at hk
    exact hk
  by_cases hki : k = i
  · subst hki
    rcases (hcell h).mp hk with hlower | hupper
    · refine ⟨k, (mem_update_update hij).mpr (.inl ⟨rfl, hlower⟩), fun l hl => ?_⟩
      rcases (mem_update_update hij).mp hl with ⟨rfl, -⟩ | ⟨-, hupper⟩ | ⟨-, -, hcelll⟩
      · rfl
      · exact absurd hupper (hdisj h hlower)
      · exact hunique l hcelll
    refine ⟨j, (mem_update_update hij).mpr (.inr (.inl ⟨rfl, hupper⟩)), fun l hl => ?_⟩
    rcases (mem_update_update hij).mp hl with ⟨-, hlower⟩ | ⟨rfl, -⟩ | ⟨hlk, -, hcelll⟩
    · exact absurd hupper (hdisj h hlower)
    · rfl
    · exact absurd (hunique l hcelll) hlk
  · -- a point outside the cell that was split stays where it is
    have hout : ¬(h ∈ lower ∨ h ∈ upper) := by
      rw [← hcell]
      exact fun hi => hki (hunique i hi).symm
    refine ⟨k, (mem_update_update hij).mpr (.inr (.inr ⟨hki, hkj, hk⟩)), fun l hl => ?_⟩
    rcases (mem_update_update hij).mp hl with ⟨-, hlower⟩ | ⟨-, hupper⟩ | ⟨-, -, hcelll⟩
    · exact absurd (.inl hlower) hout
    · exact absurd (.inr hupper) hout
    · exact hunique l hcelll

theorem Tiling.merge (ht : Tiling cell) (hij : i ≠ j) {merged : Set H}
    (hmerged : ∀ h, h ∈ merged ↔ h ∈ cell i ∨ h ∈ cell j) :
    Tiling (update (update cell i merged) j ∅) := by
  intro h
  have hother : ∀ k, k ≠ i → k ≠ j →
      update (update cell i merged) j ∅ k = cell k := by
    intro k hki hkj
    rw [update_of_ne hkj, update_of_ne hki]
  have hfirst : update (update cell i merged) j ∅ i = merged := by
    rw [update_of_ne hij, update_self]
  have hnone : h ∉ update (update cell i merged) j ∅ j := by
    rw [update_self]
    exact fun hmem => hmem
  obtain ⟨k, hk, hunique⟩ := ht h
  by_cases hin : h ∈ merged
  · refine ⟨i, hfirst.symm ▸ hin, fun l hl => ?_⟩
    by_contra hli
    have hlj : l ≠ j := by
      rintro rfl
      exact hnone hl
    rw [hother l hli hlj] at hl
    rcases (hmerged h).mp hin with hi | hj
    · exact hli (ht.eq hl hi)
    · exact hlj (ht.eq hl hj)
  have hki : k ≠ i := by
    rintro rfl
    exact hin ((hmerged h).mpr (Or.inl hk))
  have hkj : k ≠ j := by
    rintro rfl
    exact hin ((hmerged h).mpr (Or.inr hk))
  refine ⟨k, (hother k hki hkj).symm ▸ hk, fun l hl => ?_⟩
  have hli : l ≠ i := by
    rintro rfl
    rw [hfirst] at hl
    exact hin hl
  have hlj : l ≠ j := by
    rintro rfl
    exact hnone hl
  rw [hother l hli hlj] at hl
  exact hunique l hl

end DistributedKV
