import Mathlib.Algebra.Order.Field.Power
import Mathlib.Data.Nat.Cast.Order.Field
import Mathlib.Data.Nat.Digits.Defs
import StrictJson.Proofs.Number.Rounding

/-!
# Shortest decimals

The decimals that read back as one double fill an interval. On a grid of powers of ten there is thus
one of them exactly if one of the two neighbours of the double's value is, so the search for the
coarsest grid misses none, and what it ends with has the fewest digits: `digits_shortest_le`.
-/

namespace StrictJson

namespace Binary64

variable {q a b : ℚ} {m m' : Nat}

/-! ## Intervals -/

/-- The nearer of two numbers is told by their middle. -/
theorem abs_sub_le_iff (h : a < b) : |q - a| ≤ |q - b| ↔ 2 * q ≤ a + b := by
  constructor
  · intro hle
    rcases abs_cases (q - a) with ⟨ha, _⟩ | ⟨ha, _⟩ <;>
      rcases abs_cases (q - b) with ⟨hb, _⟩ | ⟨hb, _⟩ <;> linarith
  · intro hle
    rcases abs_cases (q - a) with ⟨ha, _⟩ | ⟨ha, _⟩ <;>
      rcases abs_cases (q - b) with ⟨hb, _⟩ | ⟨hb, _⟩ <;> linarith

/-- The same from the other side. -/
theorem abs_sub_le_iff' (h : a < b) : |q - b| ≤ |q - a| ↔ a + b ≤ 2 * q := by
  constructor
  · intro hle
    rcases abs_cases (q - a) with ⟨ha, _⟩ | ⟨ha, _⟩ <;>
      rcases abs_cases (q - b) with ⟨hb, _⟩ | ⟨hb, _⟩ <;> linarith
  · intro hle
    rcases abs_cases (q - a) with ⟨ha, _⟩ | ⟨ha, _⟩ <;>
      rcases abs_cases (q - b) with ⟨hb, _⟩ | ⟨hb, _⟩ <;> linarith

/-- What lies between two numbers that round to a double rounds to it as well. -/
theorem IsNearest.between (ha : IsNearest a m) (hb : IsNearest b m) (haq : a ≤ q) (hqb : q ≤ b) :
    IsNearest q m := by
  -- The upper number keeps the doubles above away, and the lower number those below.
  refine ⟨ha.le_infinity, fun m' hm' => ?_, fun m' hm' hne heq => ?_⟩
  · rcases Nat.lt_trichotomy m m' with hlt | rfl | hgt
    · have := (abs_sub_le_iff (valueOf_strictMono hlt)).1 (hb.abs_le m' hm')
      exact (abs_sub_le_iff (valueOf_strictMono hlt)).2 (by linarith)
    · exact le_rfl
    · have := (abs_sub_le_iff' (valueOf_strictMono hgt)).1 (ha.abs_le m' hm')
      exact (abs_sub_le_iff' (valueOf_strictMono hgt)).2 (by linarith)
  · -- In a tie the number that keeps the other double away is in the same tie.
    rcases Nat.lt_or_gt_of_ne hne with hlt | hgt
    · have hvalue := valueOf_strictMono hlt
      have hmid := (abs_sub_le_iff hvalue).1 heq.ge
      refine ha.even m' hm' hne (le_antisymm (ha.abs_le m' hm') ?_)
      exact (abs_sub_le_iff hvalue).2 (by linarith)
    · have hvalue := valueOf_strictMono hgt
      have hmid := (abs_sub_le_iff' hvalue).1 heq.ge
      refine hb.even m' hm' hne (le_antisymm (hb.abs_le m' hm') ?_)
      exact (abs_sub_le_iff' hvalue).2 (by linarith)

end Binary64

namespace Decimal

open Binary64

variable {d : Decimal} {m c : Nat} {g : Int}

/-! ## Grids -/

/-- The steps of a double's value are the value. -/
theorem stepsOf_value (m : Nat) (g : Int) :
    0 < (stepsOf m g).2 ∧ ((stepsOf m g).1 : ℚ) / (stepsOf m g).2 * 10 ^ g = valueOf m := by
  have hone := one_pos
  rw [valueOf]
  cases g with
  | ofNat g =>
    simp only [stepsOf, Nat.pow_eq, Int.ofNat_eq_natCast, zpow_natCast]
    generalize one = u at hone ⊢
    refine ⟨Nat.mul_pos hone (Nat.pow_pos (by decide)), ?_⟩
    push_cast
    field_simp
  | negSucc g =>
    simp only [stepsOf, Nat.pow_eq, zpow_negSucc]
    generalize one = u at hone ⊢
    refine ⟨hone, ?_⟩
    push_cast
    field_simp

/-- A decimal reads as a double if it lies between one that does and the double's value. -/
theorem toMagnitude_of_between {d d' : Decimal} (hm : m < infinity) (hd : d.toMagnitude = m)
    (h : d.value ≤ d'.value ∧ d'.value ≤ valueOf m ∨ valueOf m ≤ d'.value ∧ d'.value ≤ d.value) :
    d'.toMagnitude = m := by
  have hnearest := (toMagnitude_eq_iff hm).1 hd
  have hvalue := isNearest_valueOf hm.le
  refine (toMagnitude_eq_iff hm).2 ?_
  rcases h with ⟨hlo, hhi⟩ | ⟨hlo, hhi⟩
  · exact hnearest.between hvalue hlo hhi
  · exact hvalue.between hnearest hlo hhi

/-- On one grid, decimals are in the order of their coefficients. -/
theorem value_le_value {c' : Nat} (h : c ≤ c') : value ⟨c, g⟩ ≤ value ⟨c', g⟩ :=
  mul_le_mul_of_nonneg_right (Nat.cast_le.2 h) (by positivity)

/-- A grid on which a decimal reads back has a hit. -/
theorem onGrid?_ne_none (hm : m < infinity) (h : toMagnitude ⟨c, g⟩ = m) :
    onGrid? m g ≠ none := by
  obtain ⟨hden, hvalue⟩ := stepsOf_value m g
  have hden' : (0 : ℚ) < (stepsOf m g).2 := Nat.cast_pos.2 hden
  have hten : (0 : ℚ) ≤ 10 ^ g := by positivity
  have hbelow : value ⟨(stepsOf m g).1 / (stepsOf m g).2, g⟩ ≤ valueOf m := by
    rw [← hvalue, value]
    exact mul_le_mul_of_nonneg_right Nat.cast_div_le hten
  have habove : valueOf m ≤ value ⟨(stepsOf m g).1 / (stepsOf m g).2 + 1, g⟩ := by
    rw [← hvalue, value]
    refine mul_le_mul_of_nonneg_right ?_ hten
    rw [div_le_iff₀ hden']
    exact_mod_cast (Nat.lt_mul_of_div_lt (Nat.lt_succ_self _) hden).le
  -- The neighbour on the side of the decimal reads back.
  have hreads : toMagnitude ⟨(stepsOf m g).1 / (stepsOf m g).2, g⟩ = m ∨
      toMagnitude ⟨(stepsOf m g).1 / (stepsOf m g).2 + 1, g⟩ = m := by
    rcases Nat.lt_or_ge ((stepsOf m g).1 / (stepsOf m g).2) c with hlt | hge
    · exact .inr (toMagnitude_of_between hm h (.inr ⟨habove, value_le_value hlt⟩))
    · exact .inl (toMagnitude_of_between hm h (.inl ⟨value_le_value hge, hbelow⟩))
  simp only [onGrid?]
  split
  · split <;> exact Option.some_ne_none _
  · exact Option.some_ne_none _
  · exact Option.some_ne_none _
  · rename_i hno hno'
    rw [beq_eq_false_iff_ne] at hno hno'
    exact absurd hreads (by tauto)

/-- The search does not pass by a grid on which a decimal reads back. -/
theorem exponent_le_firstHit (hm : m < infinity) (h : d.toMagnitude = m) {k : Nat}
    (hk : d.exponent ≤ k - 1074) : d.exponent ≤ (firstHit m k).exponent := by
  induction k with
  | zero => exact hk
  | succ k ih =>
    rw [firstHit]
    split
    · exact hk
    · rename_i hnone
      refine ih ?_
      have hne : d.exponent ≠ ((k + 1 : Nat) : Int) - 1074 := by
        intro heq
        refine onGrid?_ne_none hm (c := d.coefficient) (g := k + 1 - 1074) ?_ hnone
        rwa [show ((k : Int) + 1 - 1074) = d.exponent by rw [heq]; push_cast; rfl]
      omega

/-- A decimal that reads as a finite double other than zero is on no coarser grid than the shortest
one. -/
theorem exponent_le_shortest (hm : m < infinity) (hne : m ≠ 0) (h : d.toMagnitude = m) :
    d.exponent ≤ (shortest m).exponent := by
  refine exponent_le_firstHit hm h ?_
  by_contra hlt
  obtain ⟨c, e⟩ := d
  have hc : c ≠ 0 := by
    rintro rfl
    exact hne h.symm
  obtain ⟨g, rfl⟩ := Int.eq_ofNat_of_zero_le (a := e) (by simp only at hlt; omega)
  have hlarge : valueOf infinity ≤ value ⟨c, g⟩ := by
    rw [value, zpow_natCast]
    exact valueOf_infinity_le_mul hc (by simp only at hlt; omega)
  have := ((toMagnitude_eq_iff hm).1 h).unique (isNearest_infinity hlarge)
  omega

/-! ## Digits -/

/-- A number is below the power of ten that has one digit more. -/
theorem lt_pow_length_toDigits (n : Nat) : n < 10 ^ (Nat.toDigits 10 n).length := by
  induction n using Nat.strongRecOn with
  | ind n ih =>
    rw [Nat.toDigits_eq_if (by decide)]
    split
    · simpa using ‹n < 10›
    · have := ih (n / 10) (by omega)
      rw [List.length_append, List.length_singleton, Nat.pow_succ]
      omega

/-- No decimal that reads as a finite double other than zero has fewer digits than the shortest
one. -/
theorem digits_shortest_le (hm : m < infinity) (hne : m ≠ 0) (h : d.toMagnitude = m) :
    (shortest m).digits.length ≤ d.digits.length := by
  have hshortest := toMagnitude_shortest hm
  have hexponent := exponent_le_shortest hm hne h
  have hdigits : d.digits.length ≠ 0 :=
    fun h0 => Nat.toDigits_ne_nil (List.length_eq_zero_iff.1 h0)
  by_contra hlt
  -- With fewer digits, a power of ten would lie in between, on a coarser grid.
  obtain ⟨k, hk⟩ : ∃ k, (shortest m).digits.length = d.digits.length + k + 1 :=
    ⟨(shortest m).digits.length - d.digits.length - 1, by omega⟩
  have hsmall : d.coefficient < 10 ^ (d.digits.length + k) :=
    Nat.lt_of_lt_of_le (lt_pow_length_toDigits _)
      (Nat.pow_le_pow_right (by decide) (Nat.le_add_right d.digits.length k))
  have hlarge : 10 ^ (d.digits.length + k) ≤ (shortest m).coefficient := by
    by_contra hlt'
    have := Nat.toDigits_length 10 _ (d.digits.length + k) (by omega) (Nat.lt_of_not_le hlt')
    rw [digits] at hk
    omega
  have hpower : value ⟨1, (shortest m).exponent + (d.digits.length + k : Nat)⟩ =
      (10 ^ (d.digits.length + k) : Nat) * 10 ^ (shortest m).exponent := by
    rw [value, zpow_add₀ (by norm_num), zpow_natCast]
    push_cast
    ring
  have hbetween : toMagnitude ⟨1, (shortest m).exponent + (d.digits.length + k : Nat)⟩ = m := by
    refine (toMagnitude_eq_iff hm).2 (((toMagnitude_eq_iff hm).1 h).between
      ((toMagnitude_eq_iff hm).1 hshortest) ?_ ?_)
    · rw [hpower, value]
      exact mul_le_mul (Nat.cast_le.2 hsmall.le)
        (zpow_le_zpow_right₀ (by norm_num) hexponent) (by positivity) (by positivity)
    · rw [hpower, value]
      exact mul_le_mul_of_nonneg_right (Nat.cast_le.2 hlarge) (by positivity)
  have := exponent_le_shortest hm hne hbetween
  simp only at this
  omega

end Decimal

end StrictJson
