import StrictJson.Proofs.Number.Rounding

/-!
# Close doubles

Doubles are compared up to a rounding error: their distance is rounded to a double and must be less
than the double nearest to `10 ^ (-12)`. `isClose_iff` says so in terms of exact values.
-/

namespace StrictJson.Binary64

variable {x y : Binary64}

/-- The value of a finite double. -/
def value (x : Binary64) : ℚ :=
  x.units / one

/-- The distance of two doubles, rounded, is less than `10 ^ (-12)`, rounded likewise. -/
def IsNear (x y : Binary64) : Prop :=
  ∃ d e, IsNearest |x.value - y.value| d ∧ IsNearest (1 / 10 ^ 12) e ∧ valueOf d < valueOf e

/-- The distance of two doubles in units. -/
theorem abs_value_sub (x y : Binary64) :
    |x.value - y.value| = ((x.units - y.units).natAbs : ℚ) / (1 : ℕ) / one := by
  rw [value, value, ← sub_div, abs_div, abs_of_pos cast_one_pos, Nat.cast_one, div_one,
    Nat.cast_natAbs, Int.cast_abs, Int.cast_sub]

/-- The double nearest to `10 ^ (-12)`. -/
theorem isNearest_tolerance : IsNearest (1 / 10 ^ 12) (nearest one (Nat.pow 10 12)) := by
  have hcast : ((Nat.pow 10 12 : ℕ) : ℚ) = 10 ^ 12 := by norm_num
  have h := isNearest_nearest one (show 0 < Nat.pow 10 12 by decide)
  rwa [min_eq_left (by decide +kernel), div_right_comm, div_self cast_one_pos.ne', hcast] at h

/-- The test of closeness is exact. -/
theorem isClose_iff : x.isClose y = true ↔ x.IsNear y := by
  have hlt : nearest one (Nat.pow 10 12) < infinity := by decide +kernel
  have hdistance := isNearest_nearest (x.units - y.units).natAbs Nat.one_pos
  rw [← abs_value_sub] at hdistance
  rw [isClose, decide_eq_true_iff]
  constructor
  · intro h
    refine ⟨_, _, hdistance, isNearest_tolerance, valueOf_strictMono ?_⟩
    exact Nat.lt_of_le_of_lt (Nat.min_le_left _ _) h
  · rintro ⟨d, e, hd, he, h⟩
    rw [hd.unique hdistance, he.unique isNearest_tolerance, valueOf_strictMono.lt_iff_lt] at h
    exact (min_lt_iff.1 h).resolve_right (Nat.not_lt.2 (Nat.le_of_lt hlt))

/-- Every double is close to itself. -/
theorem isClose_self (x : Binary64) : x.isClose x = true := by
  have h : nearest 0 1 < nearest one (Nat.pow 10 12) := by decide +kernel
  rwa [isClose, sub_self, decide_eq_true_iff, Int.natAbs_zero]

/-- Closeness is symmetric. -/
theorem isClose_comm (x y : Binary64) : x.isClose y = y.isClose x := by
  rw [isClose, isClose, ← Int.natAbs_neg, neg_sub]

end StrictJson.Binary64
