import Mathlib.Algebra.Order.Ring.Nat
import Mathlib.Algebra.Order.Ring.Rat
import Mathlib.Data.List.Induction
import Mathlib.Data.List.Sort
import DistributedKV.Lib.GoMap

/-!
# Histograms and their export (`metrics.go`, `prometheus.go`)

`Observe` puts a value into the first bucket whose bound is not below it, `Get` copies the counts
of the buckets into a map, and `writeHistogramMetric` writes one line per entry of the map. The
format asks for the counts up to each bound (`sum_take_counts`), and the exporter does not add
them up. A bound is a rational and stands for its own label; `⊤` is the label `+Inf`.
-/

namespace DistributedKV.Monitoring

open List

/-- `Histogram`. The last count is that of the bucket `+Inf`. -/
structure Histogram where
  buckets : List ℚ
  counts : List Nat
  sum : Int
  count : Nat
  sized : counts.length = buckets.length + 1

/-- The buckets `NewHistogram` takes if it is given none. -/
def defaultBuckets : List ℚ :=
  [1 / 200, 1 / 100, 1 / 40, 1 / 20, 1 / 10, 1 / 4, 1 / 2, 1, 5 / 2, 5, 10]

/-- `NewHistogram`. -/
def newHistogram (buckets : Option (List ℚ)) : Histogram where
  buckets := buckets.getD defaultBuckets
  counts := List.replicate ((buckets.getD defaultBuckets).length + 1) 0
  sum := 0
  count := 0
  sized := List.length_replicate

/-- What `Histogram.Get` returns. -/
structure Snapshot where
  buckets : GoMap (WithTop ℚ) Nat
  sum : ℚ
  count : Nat

/-- The lines of `writeHistogramMetric`: the buckets with their bounds, the sum and the
count. -/
structure Exposition where
  bucketLines : List ((_ : WithTop ℚ) × Nat)
  sum : ℚ
  count : Nat

namespace Histogram

/-- The bucket that `Observe` counts a value in; the last one if no bound is reached. -/
def bucketOf (buckets : List ℚ) (value : ℚ) : Nat :=
  buckets.findIdx fun bucket => value ≤ bucket

/-- `Observe`. The sum is kept in thousandths, cut off towards zero. -/
def observe (h : Histogram) (value : ℚ) : Histogram :=
  { h with
    count := h.count + 1
    sum := h.sum + (value * 1000).num.tdiv (value * 1000).den
    counts := h.counts.modify (bucketOf h.buckets value) (· + 1)
    sized := by rw [List.length_modify, h.sized] }

@[simp] theorem counts_observe (h : Histogram) (value : ℚ) :
    (h.observe value).counts = h.counts.modify (bucketOf h.buckets value) (· + 1) := rfl

/-- `Get`. -/
def get (h : Histogram) : Snapshot where
  buckets := (GoMap.putAll ∅ ((h.buckets.map WithTop.some).zip h.counts)).insert ⊤
    (h.counts.getD h.buckets.length 0)
  sum := h.sum / 1000
  count := h.count

end Histogram

/-- `writeHistogramMetric`: one line per entry of the map, in the order of the loop. -/
def writeHistogramMetric (order : IterationOrder ((_ : WithTop ℚ) × Nat)) (metric : Snapshot) :
    Exposition where
  bucketLines := order.pick metric.buckets.entries
  sum := metric.sum
  count := metric.count

/-- A run of observations. -/
def run (buckets : List ℚ) (values : List ℚ) : Histogram :=
  values.foldl Histogram.observe (newHistogram (some buckets))

/-- The export follows the format: there is a line for each bound and for `+Inf`, its count is
the number of values that are at most the bound, so the counts do not decrease with the bound,
and that for `+Inf` is the total count. -/
structure Follows (buckets values : List ℚ) (e : Exposition) : Prop where
  present : ∀ le : WithTop ℚ, (le = ⊤ ∨ ∃ b ∈ buckets, le = b) → ∃ c, ⟨le, c⟩ ∈ e.bucketLines
  cumulative : ∀ le c, ⟨le, c⟩ ∈ e.bucketLines →
    c = values.countP fun v => ((v : ℚ) : WithTop ℚ) ≤ le
  nondecreasing : ∀ le c le' c', ⟨le, c⟩ ∈ e.bucketLines → ⟨le', c'⟩ ∈ e.bucketLines →
    le ≤ le' → c ≤ c'
  total : ∀ c, ⟨⊤, c⟩ ∈ e.bucketLines → c = e.count

/-! ## What a run counts -/

section Counts

variable {buckets values : List ℚ} {b v : ℚ} {i : Nat}

theorem run_concat (buckets values : List ℚ) (v : ℚ) :
    run buckets (values ++ [v]) = (run buckets values).observe v := by
  rw [run, foldl_append, foldl_cons, foldl_nil, run]

@[simp] theorem buckets_run : (run buckets values).buckets = buckets := by
  induction values using List.reverseRecOn with
  | nil => rfl
  | append_singleton values v ih =>
    rw [run_concat]
    exact ih

theorem count_run : (run buckets values).count = values.length := by
  induction values using List.reverseRecOn with
  | nil => rfl
  | append_singleton values v ih =>
    rw [run_concat, length_append, length_singleton, ← ih]
    rfl

open Histogram

/-- **The counts of a run.** Each bucket holds the values that fell into it. -/
theorem counts_run (hi : i ≤ buckets.length) :
    (run buckets values).counts[i]? = some (values.countP fun v => bucketOf buckets v = i) := by
  induction values using List.reverseRecOn with
  | nil =>
    show (List.replicate (buckets.length + 1) 0)[i]? = _
    rw [getElem?_replicate_of_lt (by omega)]
    rfl
  | append_singleton values v ih =>
    rw [run_concat, counts_observe, buckets_run, getElem?_modify, ih,
      countP_append, countP_singleton]
    by_cases hb : bucketOf buckets v = i <;> simp [hb]

/-- A value is in the last bucket exactly if it is above every bound. -/
theorem bucketOf_eq_length_iff : bucketOf buckets v = buckets.length ↔ ∀ b ∈ buckets, b < v := by
  rw [bucketOf, findIdx_eq_length]
  simp

/-- For increasing bounds, a value is in one of the first buckets exactly if it is at most their
last bound. -/
theorem bucketOf_le_iff (hsorted : buckets.Pairwise (· < ·)) (hb : buckets[i]? = some b) :
    bucketOf buckets v ≤ i ↔ v ≤ b := by
  obtain ⟨hlt, rfl⟩ := List.getElem?_eq_some_iff.mp hb
  constructor
  · intro hle
    -- the bound that stopped the loop is at most the one at `i`
    have hfound : bucketOf buckets v < buckets.length := by omega
    have hv : v ≤ buckets[bucketOf buckets v] := of_decide_eq_true (findIdx_getElem (w := hfound))
    refine hv.trans ?_
    rcases Nat.lt_or_eq_of_le hle with hlt' | heq
    · exact (pairwise_iff_getElem.mp hsorted _ _ hfound hlt hlt').le
    · exact le_of_eq (by simp only [heq])
  · intro hv
    by_contra hgt
    have h := not_of_lt_findIdx (Nat.lt_of_not_le hgt)
    simp [hv] at h

theorem countP_lt_succ (f : ℚ → Nat) (n : Nat) (l : List ℚ) :
    (l.countP fun v => f v < n + 1) = (l.countP fun v => f v < n) + l.countP fun v => f v = n := by
  induction l with
  | nil => rfl
  | cons v l ih =>
    rw [countP_cons, countP_cons, countP_cons, ih]
    rcases Nat.lt_trichotomy (f v) n with h | h | h
    · simp [h, Nat.lt_succ_of_lt h, Nat.ne_of_lt h]
      omega
    · simp [h]
      omega
    · simp [Nat.not_lt.mpr h.le, Nat.ne_of_gt h, show ¬f v < n + 1 by omega]

/-- **The cumulative counts** up to a bound add up to the number of values at most that bound.
-/
theorem sum_take_counts (hsorted : buckets.Pairwise (· < ·)) (hb : buckets[i]? = some b) :
    ((run buckets values).counts.take (i + 1)).sum = values.countP (· ≤ b) := by
  obtain ⟨hlt, -⟩ := List.getElem?_eq_some_iff.mp hb
  -- the first counts add up to the values of the first buckets
  have hsum : ∀ n, n ≤ buckets.length + 1 → ((run buckets values).counts.take n).sum =
      values.countP fun v => bucketOf buckets v < n := by
    intro n
    induction n with
    | zero =>
      intro _
      exact (countP_eq_zero.mpr fun v _ => by
        rw [decide_eq_true_iff]; exact Nat.not_lt_zero _).symm
    | succ n ih =>
      intro hn
      have hcount : (run buckets values).counts[n]? = some _ := counts_run (Nat.le_of_lt_succ hn)
      rw [take_add_one, hcount, Option.toList_some, sum_append_nat, ih (by omega), countP_lt_succ]
      rfl
  rw [hsum (i + 1) (by omega)]
  refine countP_congr fun v _ => ?_
  rw [decide_eq_true_iff, decide_eq_true_iff, Nat.lt_succ_iff]
  exact bucketOf_le_iff hsorted hb

theorem sum_take_counts_two :
    ((run [1, 2] [2, 3, 1]).counts.take 2).sum = [2, 3, 1].countP (· ≤ (2 : ℚ)) :=
  sum_take_counts (by decide +kernel) rfl

end Counts

/-! ## What is exported -/

section Export

variable {buckets values : List ℚ} {order : IterationOrder ((_ : WithTop ℚ) × Nat)}

/-- The export of a run of observations. -/
def exported (order : IterationOrder ((_ : WithTop ℚ) × Nat)) (buckets values : List ℚ) :
    Exposition :=
  writeHistogramMetric order (run buckets values).get

theorem mem_bucketLines {le : WithTop ℚ} {c : Nat} :
    ⟨le, c⟩ ∈ (exported order buckets values).bucketLines ↔
      (run buckets values).get.buckets.lookup le = some c := by
  show _ ∈ order.pick _ ↔ _
  rw [order.mem_pick, ← AList.mem_lookup_iff, Option.mem_def]

theorem lookup_top : (run buckets values).get.buckets.lookup ⊤ =
    some (values.countP fun v => ∀ b ∈ buckets, b < v) := by
  rw [Histogram.get, AList.lookup_insert, buckets_run, getD_eq_getElem?_getD, counts_run le_rfl,
    Option.getD_some]
  congr 1
  refine countP_congr fun v _ => ?_
  rw [decide_eq_true_iff, decide_eq_true_iff]
  exact bucketOf_eq_length_iff

/-- The count of a bound is that of its own bucket alone. -/
theorem lookup_bound (hsorted : buckets.Pairwise (· < ·)) {b : ℚ} {i : Nat}
    (hb : buckets[i]? = some b) : (run buckets values).get.buckets.lookup (b : WithTop ℚ) =
    some (values.countP fun v => Histogram.bucketOf buckets v = i) := by
  obtain ⟨hi, rfl⟩ := List.getElem?_eq_some_iff.mp hb
  have hlen := (run buckets values).sized
  rw [buckets_run] at hlen
  have hnodup : ((((run buckets values).buckets.map WithTop.some).zip
      (run buckets values).counts).map Prod.fst).Nodup := by
    rw [buckets_run, map_fst_zip (by rw [length_map]; omega)]
    exact (hsorted.imp fun h => ne_of_lt h).map _ fun a b h h' => h (WithTop.coe_injective h')
  rw [Histogram.get, AList.lookup_insert_ne WithTop.coe_ne_top, GoMap.lookup_putAll hnodup]
  refine mem_iff_getElem?.mpr ⟨i, ?_⟩
  rw [getElem?_zip_eq_some, getElem?_map, buckets_run, hb]
  exact ⟨rfl, counts_run hi.le⟩

/-- The lines of an export: one for `+Inf` and one for each bound. -/
theorem bucketLines_cases (hsorted : buckets.Pairwise (· < ·)) {le : WithTop ℚ} {c : Nat}
    (h : ⟨le, c⟩ ∈ (exported order buckets values).bucketLines) :
    (le = ⊤ ∧ c = values.countP fun v => ∀ b ∈ buckets, b < v) ∨
    ∃ (i : Nat) (b : ℚ), buckets[i]? = some b ∧ le = (b : WithTop ℚ) ∧
      c = values.countP fun v => Histogram.bucketOf buckets v = i := by
  rw [mem_bucketLines] at h
  cases le with
  | top =>
    rw [lookup_top] at h
    exact Or.inl ⟨rfl, (Option.some.inj h).symm⟩
  | coe b =>
    by_cases hmem : b ∈ buckets
    · obtain ⟨i, hi⟩ := mem_iff_getElem?.mp hmem
      rw [lookup_bound hsorted hi] at h
      exact Or.inr ⟨i, b, hi, rfl, (Option.some.inj h).symm⟩
    -- no other bound gets a line
    have hnot : (b : WithTop ℚ) ∉ (((run buckets values).buckets.map WithTop.some).zip
        (run buckets values).counts).map Prod.fst := by
      rw [buckets_run]
      intro hzip
      obtain ⟨e, he, heb⟩ := mem_map.mp hzip
      obtain ⟨b', hb', heq⟩ := mem_map.mp (of_mem_zip he).1
      exact hmem (WithTop.coe_injective (heq.trans heb) ▸ hb')
    rw [Histogram.get, AList.lookup_insert_ne WithTop.coe_ne_top,
      GoMap.lookup_putAll_of_notMem hnot, AList.lookup_empty] at h
    cases h

end Export

/-- **The export and the format.** For increasing bounds, the export of a run follows the format
exactly if every value is above every bound. -/
theorem follows_iff (order : IterationOrder ((_ : WithTop ℚ) × Nat)) (buckets values : List ℚ)
    (hsorted : buckets.Pairwise (· < ·)) :
    Follows buckets values (exported order buckets values) ↔
      ∀ v ∈ values, ∀ b ∈ buckets, b < v := by
  constructor
  · intro h
    -- the count for `+Inf` is the total only if all values are in the last bucket
    have htotal := h.total _ (mem_bucketLines.mpr lookup_top)
    have hcount : (exported order buckets values).count = values.length := count_run
    rw [hcount, countP_eq_length] at htotal
    exact fun v hv => of_decide_eq_true (htotal v hv)
  intro habove
  have hlast : ∀ v ∈ values, Histogram.bucketOf buckets v = buckets.length :=
    fun v hv => bucketOf_eq_length_iff.mpr (habove v hv)
  have hline : ∀ le c, ⟨le, c⟩ ∈ (exported order buckets values).bucketLines →
      (le = ⊤ ∧ c = values.length) ∨ ((∃ b ∈ buckets, le = (b : WithTop ℚ)) ∧ c = 0) := by
    intro le c hmem
    rcases bucketLines_cases hsorted hmem with ⟨rfl, rfl⟩ | ⟨i, b, hi, rfl, rfl⟩
    · exact Or.inl ⟨rfl, countP_eq_length.mpr fun v hv => decide_eq_true (habove v hv)⟩
    refine Or.inr ⟨⟨b, mem_of_getElem? hi, rfl⟩, countP_eq_zero.mpr fun v hv => ?_⟩
    obtain ⟨hlt, -⟩ := List.getElem?_eq_some_iff.mp hi
    rw [decide_eq_true_iff, hlast v hv]
    omega
  constructor
  · rintro le (rfl | ⟨b, hb, rfl⟩)
    · exact ⟨_, mem_bucketLines.mpr lookup_top⟩
    · obtain ⟨i, hi⟩ := mem_iff_getElem?.mp hb
      exact ⟨_, mem_bucketLines.mpr (lookup_bound hsorted hi)⟩
  · intro le c hmem
    rcases hline le c hmem with ⟨rfl, rfl⟩ | ⟨⟨b, hb, rfl⟩, rfl⟩
    · exact (countP_eq_length.mpr fun v _ => decide_eq_true le_top).symm
    refine (countP_eq_zero.mpr fun v hv => ?_).symm
    rw [decide_eq_true_iff, WithTop.coe_le_coe, not_le]
    exact habove v hv b hb
  · intro le c le' c' hmem hmem' hle
    rcases hline le c hmem with ⟨rfl, rfl⟩ | ⟨-, rfl⟩
    · rcases hline le' c' hmem' with ⟨-, rfl⟩ | ⟨⟨b, -, rfl⟩, -⟩
      · exact le_rfl
      · exact absurd (top_le_iff.mp hle) WithTop.coe_ne_top
    · exact Nat.zero_le _
  · intro c hmem
    rcases hline ⊤ c hmem with ⟨-, rfl⟩ | ⟨⟨b, -, htop⟩, -⟩
    · exact count_run.symm
    · exact absurd htop.symm WithTop.coe_ne_top

/-- Two values above the only bound. -/
theorem follows_above : Follows [1] [2, 3] (exported .asGiven [1] [2, 3]) :=
  (follows_iff .asGiven [1] [2, 3] (by decide +kernel)).mpr (by decide +kernel)

/-- One value is in the first of two buckets: the second line and that for `+Inf` should count
it too. -/
theorem follows_counterexample : (exported .asGiven [1, 2] [1]).bucketLines =
      [⟨⊤, 0⟩, ⟨((2 : ℚ) : WithTop ℚ), 0⟩, ⟨((1 : ℚ) : WithTop ℚ), 1⟩] ∧
    (exported .asGiven [1, 2] [1]).count = 1 ∧
    ¬Follows [1, 2] [1] (exported .asGiven [1, 2] [1]) := by
  have hlines : (exported .asGiven [1, 2] [1]).bucketLines =
      [⟨⊤, 0⟩, ⟨((2 : ℚ) : WithTop ℚ), 0⟩, ⟨((1 : ℚ) : WithTop ℚ), 1⟩] := by
    decide +kernel
  refine ⟨hlines, rfl, fun h => ?_⟩
  have htotal := h.total 0 (by rw [hlines]; exact mem_cons_self)
  exact absurd htotal (by decide +kernel)

end DistributedKV.Monitoring
