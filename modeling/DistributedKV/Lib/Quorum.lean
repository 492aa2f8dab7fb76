import Mathlib.Data.List.Perm.Subperm
import Mathlib.Data.List.Nodup

/-!
# Majorities of a fixed membership

A quorum is a list of members without repetition that has more than half of them. Any two share a
member, which is the one fact every vote-counting argument rests on.
-/

namespace DistributedKV.Lib

open List

universe u

variable {α : Type u} {members V W : List α}

/-- More than half of the members, each listed once. -/
structure Majority (members V : List α) : Prop where
  nodup : V.Nodup
  subset : V ⊆ members
  card : members.length < 2 * V.length

/-- **Two majorities share a member.** -/
theorem Majority.intersect (hV : Majority members V) (hW : Majority members W) :
    ∃ v ∈ V, v ∈ W := by
  by_contra hdisj
  push Not at hdisj
  -- disjoint majorities would together have too many members
  have hnodup : (V ++ W).Nodup :=
    nodup_append.mpr ⟨hV.nodup, hW.nodup, fun v hv w hw heq => hdisj v hv (heq ▸ hw)⟩
  have hle := (hnodup.subperm (append_subset.mpr ⟨hV.subset, hW.subset⟩)).length_le
  rw [length_append] at hle
  have h₁ := hV.card
  have h₂ := hW.card
  omega

/-- **Which thresholds make quorums.** Two groups of at least `q` members always share a member
exactly if `q` is more than half of the membership. -/
theorem forall_intersect_iff (hmembers : members.Nodup) (q : Nat) :
    (∀ V W : List α, V.Nodup → W.Nodup → V ⊆ members → W ⊆ members → q ≤ V.length →
      q ≤ W.length → ∃ v ∈ V, v ∈ W) ↔ members.length < 2 * q := by
  constructor
  · intro h
    by_contra hsmall
    -- the first `q` members and the others are two such groups
    have htake : q ≤ (members.take q).length := by
      rw [length_take]
      omega
    have hdrop : q ≤ (members.drop q).length := by
      rw [length_drop]
      omega
    obtain ⟨v, hv, hv'⟩ := h _ _ (hmembers.sublist (take_sublist q members))
      (hmembers.sublist (drop_sublist q members)) (take_subset q members)
      (drop_subset q members) htake hdrop
    exact disjoint_take_drop hmembers (Nat.le_refl q) hv hv'
  · intro hq V W hV hW hVsub hWsub hVlen hWlen
    have hVmaj : Majority members V := ⟨hV, hVsub, by omega⟩
    have hWmaj : Majority members W := ⟨hW, hWsub, by omega⟩
    exact hVmaj.intersect hWmaj

end DistributedKV.Lib
