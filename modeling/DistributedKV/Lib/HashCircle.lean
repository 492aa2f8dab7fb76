import Mathlib.Data.List.Rotate
import Mathlib.Data.List.Sort

/-!
# Points on a circle

The values of a linear order, closed to a circle: going up from `h` one passes the values from `h`
on, and then, from the bottom again, those below `h`.
-/

namespace DistributedKV

open List

universe u

section Circle

variable {H : Type u} [LinearOrder H] {h p q : H} {points points' : Set H} {l : List H}

/-- Going round from `h`, `p` is met no later than `q`. -/
def Meets (h p q : H) : Prop :=
  (h ≤ p ∧ q < h) ∨ ((h ≤ p ↔ h ≤ q) ∧ p ≤ q)

theorem Meets.antisymm (hpq : Meets h p q) (hqp : Meets h q p) : p = q := by
  rcases hpq with ⟨hp, hq⟩ | ⟨hiff, hle⟩
  · rcases hqp with ⟨hq', -⟩ | ⟨hiff, -⟩
    · exact absurd hq' (not_le.mpr hq)
    · exact absurd (hiff.mpr hp) (not_le.mpr hq)
  rcases hqp with ⟨hq, hp⟩ | ⟨-, hge⟩
  · exact absurd (hiff.mpr hq) (not_le.mpr hp)
  · exact le_antisymm hle hge

/-- The first point that is met going round from `h`. -/
structure Nearest (points : Set H) (h p : H) : Prop where
  mem : p ∈ points
  first : ∀ q ∈ points, Meets h p q

theorem Nearest.unique (hp : Nearest points h p) (hq : Nearest points h q) : p = q :=
  (hp.first q hq.mem).antisymm (hq.first p hp.mem)

/-- A list of points as they are met from `h` on, rotated to the first point that is not below
`h`. -/
def clockwise (h : H) (l : List H) : List H := l.rotate (l.findIdx fun p => decide (h ≤ p))

@[simp] theorem mem_clockwise : p ∈ clockwise h l ↔ p ∈ l := mem_rotate

@[simp] theorem length_clockwise : (clockwise h l).length = l.length := length_rotate ..

section

variable (hsorted : l.Pairwise (· < ·))
include hsorted

/-- Where a search in a sorted list ends it is cut into the points below `h` and the others. -/
theorem take_drop_findIdx :
    l.take (l.findIdx fun p => decide (h ≤ p)) = l.filter (· < h) ∧
      l.drop (l.findIdx fun p => decide (h ≤ p)) = l.filter (h ≤ ·) := by
  induction l with
  | nil => simp
  | cons p l ih =>
    obtain ⟨hp, hl⟩ := pairwise_cons.mp hsorted
    obtain ⟨htake, hdrop⟩ := ih hl
    by_cases hle : h ≤ p
    · have hall : ∀ q ∈ l, h ≤ q := fun q hq => hle.trans (hp q hq).le
      have hnone : l.filter (· < h) = [] := by
        simpa [filter_eq_nil_iff] using hall
      have hkeep : l.filter (h ≤ ·) = l := by
        simpa [filter_eq_self] using hall
      simp [findIdx_cons, hle, hnone, hkeep, not_lt.mpr hle]
    · simp [findIdx_cons, hle, htake, hdrop, not_le.mp hle]

theorem clockwise_eq :
    clockwise h l = l.filter (h ≤ ·) ++ l.filter (· < h) := by
  obtain ⟨htake, hdrop⟩ := take_drop_findIdx (h := h) hsorted
  rw [clockwise, rotate_eq_drop_append_take findIdx_le_length, htake, hdrop]

theorem clockwise_pairwise : (clockwise h l).Pairwise (Meets h) := by
  rw [clockwise_eq hsorted, pairwise_append]
  refine ⟨?_, ?_, ?_⟩
  · refine (hsorted.filter _).imp_of_mem ?_
    intro p q hp hq hlt
    simp only [mem_filter, decide_eq_true_eq] at hp hq
    exact Or.inr ⟨iff_of_true hp.2 hq.2, hlt.le⟩
  · refine (hsorted.filter _).imp_of_mem ?_
    intro p q hp hq hlt
    simp only [mem_filter, decide_eq_true_eq] at hp hq
    exact Or.inr ⟨iff_of_false (not_le.mpr hp.2) (not_le.mpr hq.2), hlt.le⟩
  · intro p hp q hq
    simp only [mem_filter, decide_eq_true_eq] at hp hq
    exact Or.inl ⟨hp.2, hq.2⟩

theorem nearest_of_clockwise {rest : List H}
    (hhead : clockwise h l = p :: rest) : Nearest {q | q ∈ l} h p := by
  have hpw := clockwise_pairwise (h := h) hsorted
  rw [hhead] at hpw
  constructor
  · show p ∈ l
    rw [← mem_clockwise (h := h), hhead]
    exact mem_cons_self
  intro q hq
  have hq' : q ∈ p :: rest := by
    rw [← hhead]
    exact mem_clockwise.mpr hq
  rcases mem_cons.mp hq' with rfl | hq'
  · exact Or.inr ⟨Iff.rfl, le_rfl⟩
  · exact (pairwise_cons.mp hpw).1 q hq'

end

/-- The smallest point is nearest to what is not above it and to what is above all points. -/
theorem nearest_smallest_iff {rest : List H} (hsorted : (p :: rest).Pairwise (· < ·)) :
    Nearest {q | q ∈ p :: rest} h p ↔ h ≤ p ∨ ∀ q ∈ p :: rest, q < h := by
  have hsmallest : ∀ q ∈ p :: rest, p ≤ q :=
    forall_mem_cons.mpr ⟨le_rfl, fun q hq => ((pairwise_cons.mp hsorted).1 q hq).le⟩
  constructor
  · intro hnear
    by_cases hle : h ≤ p
    · exact Or.inl hle
    refine Or.inr fun q hq => ?_
    rcases hnear.first q hq with ⟨hp, -⟩ | ⟨hiff, -⟩
    · exact absurd hp hle
    · exact not_le.mp (mt hiff.mpr hle)
  · intro hcase
    refine ⟨mem_cons_self, fun q hq => Or.inr ⟨?_, hsmallest q hq⟩⟩
    rcases hcase with hle | habove
    · exact iff_of_true hle (hle.trans (hsmallest q hq))
    · exact iff_of_false (not_le.mpr (habove p mem_cons_self)) (not_le.mpr (habove q hq))

/-- A point with another one right before it is nearest to what lies between the two. -/
theorem nearest_next_iff {before after : List H} {last : H}
    (hsorted : (before ++ last :: p :: after).Pairwise (· < ·)) :
    Nearest {q | q ∈ before ++ last :: p :: after} h p ↔ last < h ∧ h ≤ p := by
  obtain ⟨-, hright, hacross⟩ := pairwise_append.mp hsorted
  obtain ⟨hlast, hafter⟩ := pairwise_cons.mp hright
  have hlt : last < p := hlast p mem_cons_self
  constructor
  · intro hnear
    rcases hnear.first last (by simp) with ⟨hp, hbelow⟩ | ⟨-, hle⟩
    · exact ⟨hbelow, hp⟩
    · exact absurd hlt (not_lt.mpr hle)
  rintro ⟨hbelow, hp⟩
  refine ⟨by simp, fun q hq => ?_⟩
  rcases mem_append.mp hq with hq | hq
  · exact Or.inl ⟨hp, (hacross q hq last mem_cons_self).trans hbelow⟩
  rcases mem_cons.mp hq with rfl | hq
  · exact Or.inl ⟨hp, hbelow⟩
  have hle : p ≤ q := by
    rcases mem_cons.mp hq with rfl | hq
    · exact le_rfl
    · exact ((pairwise_cons.mp hafter).1 q hq).le
  exact Or.inr ⟨iff_of_true hp (hp.trans hle), hle⟩

end Circle

section Distinct

variable {α : Type u} [DecidableEq α]

/-- The elements that were not seen before, each where it first occurs. -/
def distinctFrom (seen : List α) : List α → List α
  | [] => []
  | a :: l => if a ∈ seen then distinctFrom seen l else a :: distinctFrom (a :: seen) l

theorem mem_distinctFrom {a : α} {seen l : List α} :
    a ∈ distinctFrom seen l ↔ a ∈ l ∧ a ∉ seen := by
  induction l generalizing seen with
  | nil => simp [distinctFrom]
  | cons b l ih =>
    rw [distinctFrom]
    split
    · next hb =>
      rw [ih, mem_cons]
      grind
    · next hb =>
      rw [mem_cons, ih, mem_cons, mem_cons]
      grind

theorem distinctFrom_eq_nil {seen l : List α} (h : ∀ a ∈ l, a ∈ seen) :
    distinctFrom seen l = [] := by
  induction l with
  | nil => rfl
  | cons a l ih =>
    rw [distinctFrom, if_pos (h a mem_cons_self)]
    exact ih fun b hb => h b (mem_cons_of_mem a hb)

theorem nodup_distinctFrom {seen l : List α} : (distinctFrom seen l).Nodup := by
  induction l generalizing seen with
  | nil => exact nodup_nil
  | cons a l ih =>
    rw [distinctFrom]
    split
    · exact ih
    rw [nodup_cons]
    refine ⟨fun hmem => ?_, ih⟩
    exact (mem_distinctFrom.mp hmem).2 mem_cons_self

/-- Elements that a filter drops may be seen or not. -/
theorem filter_distinctFrom (p : α → Bool) {seen seen' l : List α}
    (hseen : ∀ a, p a = true → (a ∈ seen ↔ a ∈ seen')) :
    (distinctFrom seen l).filter p = distinctFrom seen' (l.filter p) := by
  induction l generalizing seen seen' with
  | nil => rfl
  | cons a l ih =>
    by_cases hp : p a = true
    · rw [filter_cons_of_pos hp, distinctFrom, distinctFrom]
      by_cases ha : a ∈ seen
      · rw [if_pos ha, if_pos ((hseen a hp).mp ha)]
        exact ih hseen
      rw [if_neg ha, if_neg (mt (hseen a hp).mpr ha), filter_cons_of_pos hp]
      refine congrArg (a :: ·) (ih fun b hb => ?_)
      rw [mem_cons, mem_cons, hseen b hb]
    rw [filter_cons_of_neg hp, distinctFrom]
    split_ifs with ha
    · exact ih hseen
    rw [filter_cons_of_neg hp]
    refine ih fun b hb => ?_
    have hne : b ≠ a := by
      rintro rfl
      exact hp hb
    rw [mem_cons, hseen b hb]
    exact or_iff_right hne

end Distinct

theorem append_take_cons {α : Type u} {result l : List α} {a : α} {count : Nat}
    (h : result.length < count) : result ++ [a] ++ l.take (count - (result.length + 1)) =
      result ++ (a :: l).take (count - result.length) := by
  obtain ⟨left, hleft⟩ : ∃ left, count - result.length = left + 1 :=
    ⟨count - result.length - 1, by omega⟩
  have hnext : count - (result.length + 1) = left := by omega
  rw [hnext, hleft, take_succ_cons, append_assoc, singleton_append]

end DistributedKV
