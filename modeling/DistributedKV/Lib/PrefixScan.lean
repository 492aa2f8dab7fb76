import Mathlib.Data.List.Sort

/-!
# Prefix scans

An ordered key space is walked from the first key that is not below a prefix for as
long as the keys have the prefix. In the lexicographic order the keys with one prefix
stand together and behind the prefix itself, so the walk meets all of them and nothing
else.
-/

namespace DistributedKV.PrefixScan

open List

variable {α : Type*} [LT α] [LE α] [Std.IsLinearOrder α] [Std.LawfulOrderLT α]
  {p a b : List α} {keys : List (List α)}

theorem le_of_isPrefix (h : p <+: a) : p ≤ a := by
  induction p generalizing a with
  | nil => exact nil_le a
  | cons x p ih =>
    obtain ⟨s, rfl⟩ := h
    exact cons_le_cons_iff.mpr (.inr ⟨rfl, ih (prefix_append p s)⟩)

/-- Between a prefix and a key that has it there are only keys that have it. -/
theorem isPrefix_of_between (hpa : p ≤ a) (hab : a ≤ b) (hpb : p <+: b) : p <+: a := by
  induction p generalizing a b with
  | nil => exact nil_prefix
  | cons x p ih =>
    obtain ⟨s, rfl⟩ := hpb
    cases a with
    | nil => exact absurd (nil_lt_cons x p) hpa
    | cons y a =>
      obtain hxy | ⟨rfl, htail⟩ := cons_le_cons_iff.mp hpa
      · obtain hyx | ⟨rfl, -⟩ := cons_le_cons_iff.mp hab
        · exact absurd hyx (Std.not_gt_of_lt hxy)
        · exact absurd hxy (Std.lt_irrefl)
      obtain hxx | ⟨-, hab⟩ := cons_le_cons_iff.mp hab
      · exact absurd hxx (Std.lt_irrefl)
      · exact (prefix_cons_inj x).mpr (ih htail hab (prefix_append p s))

variable [DecidableEq α]

theorem takeWhile_isPrefixOf (hsorted : keys.Pairwise (· ≤ ·)) (hge : ∀ key ∈ keys, p ≤ key) :
    keys.takeWhile (p.isPrefixOf ·) = keys.filter (p.isPrefixOf ·) := by
  induction keys with
  | nil => rfl
  | cons key keys ih =>
    obtain ⟨hkey, hsorted⟩ := pairwise_cons.mp hsorted
    by_cases hp : p <+: key
    · rw [takeWhile_cons_of_pos (by simpa using hp), filter_cons_of_pos (by simpa using hp),
        ih hsorted fun k hk => hge k (mem_cons_of_mem _ hk)]
    rw [takeWhile_cons_of_neg (by simpa using hp), eq_comm, filter_eq_nil_iff]
    intro k hk hpk
    have hpk : p <+: k := by simpa using hpk
    obtain rfl | hk := mem_cons.mp hk
    · exact hp hpk
    · exact hp (isPrefix_of_between (hge key mem_cons_self) (hkey k hk) hpk)

variable [DecidableLT α]

/-- The keys that a walk meets from the first one not below `p` while they have the prefix `p`.
-/
def scan (p : List α) (keys : List (List α)) : List (List α) :=
  (keys.dropWhile (· < p)).takeWhile (p.isPrefixOf ·)

/-- A scan of sorted keys finds the keys with the prefix. -/
theorem scan_eq_filter (hsorted : keys.Pairwise (· ≤ ·)) :
    scan p keys = keys.filter (p.isPrefixOf ·) := by
  unfold scan
  induction keys with
  | nil => rfl
  | cons key keys ih =>
    obtain ⟨hkey, hrest⟩ := pairwise_cons.mp hsorted
    by_cases hlt : key < p
    · have hp : ¬ p <+: key := fun hp => le_of_isPrefix hp hlt
      rw [dropWhile_cons_of_pos (by simpa using hlt), ih hrest,
        filter_cons_of_neg (by simpa using hp)]
    rw [dropWhile_cons_of_neg (by simpa using hlt)]
    refine takeWhile_isPrefixOf hsorted ?_
    intro k hk
    obtain rfl | hk := mem_cons.mp hk
    · exact hlt
    · exact List.le_trans hlt (hkey k hk)

end DistributedKV.PrefixScan
