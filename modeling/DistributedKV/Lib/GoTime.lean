import Mathlib.Algebra.Order.Ring.Int

/-!
# Times and durations

A time is a number of nanoseconds since the zero time, a duration a 64-bit number of
nanoseconds. The difference of two times is cut off at the ends of that range, so it
has the right sign and is never too large.
-/

namespace DistributedKV

/-- `t.Sub(u)`: the difference, or the nearest duration if it does not fit. -/
def Time.sub (t u : Int) : Int64 :=
  if t - u > 9223372036854775807 then Int64.maxValue
  else if t - u < -9223372036854775808 then Int64.minValue
  else Int64.ofInt (t - u)

/-- `t.Add(d)`. -/
def Time.add (t : Int) (d : Int64) : Int := t + d.toInt

theorem Time.toInt_sub (t u : Int) :
    (Time.sub t u).toInt = max (-9223372036854775808) (min (t - u) 9223372036854775807) := by
  rw [Time.sub]
  split
  · rw [Int64.toInt_maxValue]
    omega
  split
  · rw [Int64.toInt_minValue]
    omega
  · rw [Int64.toInt_ofInt_of_le (by omega) (by omega)]
    omega

theorem Time.sub_pos {t u : Int} : 0 < Time.sub t u ↔ u < t := by
  rw [Int64.lt_iff_toInt_lt, Int64.toInt_zero, Time.toInt_sub]
  omega

theorem Time.sub_le {t u : Int} (h : u ≤ t) : (Time.sub t u).toInt ≤ t - u := by
  rw [Time.toInt_sub]
  omega

/-- The later of two times is not the farther one. -/
theorem Time.sub_le_sub_left {t u v : Int} (h : u ≤ v) : Time.sub t v ≤ Time.sub t u := by
  rw [Int64.le_iff_toInt_le, Time.toInt_sub, Time.toInt_sub]
  omega

end DistributedKV
